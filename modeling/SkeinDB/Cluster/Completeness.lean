import SkeinDB.Cluster.LogView
import SkeinDB.Cluster.Replica

/-!
# Leader completeness

Every careful step of the cluster is a step of its view or leaves the view alone, so the
invariant of leader logs carries over. `Ledger` adds what ties messages, servers and reported
commit positions to the view. A commit position reported by a primary has then been reached by
a majority, and every later winner holds the operations at or below it.
-/
namespace SkeinDB.Cluster
open Consensus

abbrev LogState := LeaderLog.State NodeId ReplicationLogEntry

abbrev LogStep (members : List NodeId) (v v' : LogState) : Prop :=
  LeaderLog.Step (·.position) members.toFinset v v'

section Facts

/-- A position that a node advertises: one it was counted at, or its log head in a term it
leads. -/
def Counted (v : LogState) (n : NodeId) (p : Position) : Prop :=
  LeaderLog.Acked (·.position) v n p ∨ ∃ l ∈ v.leaders, l.node = n ∧ l.term = p.term

/-- What a message on the network rests on. -/
def Founded (members : List NodeId) (v : LogState) : Message → Prop
  | .requestVote _ candidate term _ last none => 1 ≤ term ∧ ⟨candidate, term, last⟩ ∈ v.bids
  | .leaderAnnounce dst nodeId _ none => dst ≠ nodeId ∧ nodeId ∈ members
  | .replicate _ op => ∃ n, (n, op) ∈ v.writes
  | .heartbeat _ hb => Counted v hb.nodeId hb.applied
  | _ => True

/-- What a server's own state says about the view. -/
structure Consistent (members : List NodeId) (v : LogState) (n : NodeId) (st : AppState) :
    Prop where
  primary : st.cluster.primaryNodeId ∈ members
  leads : st.cluster.primaryNodeId = n →
    ∃ l ∈ v.leaders, l.node = n ∧ l.term = st.cluster.leadershipEpoch
  epoch : ∀ l ∈ v.leaders, l.node = n → l.term ≤ st.cluster.leadershipEpoch
  logWritten : ∀ op ∈ st.replicationLog, ∃ m, (m, op) ∈ v.writes
  logBelow : ∀ op ∈ st.replicationLog,
    op.position ≤ ⟨st.cluster.leadershipEpoch, st.cluster.replication.opSeq⟩
  seq : ∀ op, (n, op) ∈ v.writes → op.position.seq ≤ st.cluster.replication.opSeq
  rows : ∀ row ∈ st.cluster.nodes, Counted v row.nodeId row.applied
  latest : 1 ≤ st.cluster.votedEpoch →
    ∃ q, ⟨n, st.cluster.votedFor, st.cluster.votedEpoch, q⟩ ∈ v.votes

/-- The operations of a reported commit position are those of the log of its term, and a
majority has reached it. In a cluster of one node nobody else can win. -/
def Reported (members : List NodeId) (v : LogState) (r : CommitReport) : Prop :=
  (∀ m ∈ members, m = r.node) ∨ r.ops = [] ∨
    r.commit.term ≤ r.epoch ∧ (∀ op ∈ r.ops, LeaderLog.InLog (·.position) v r.commit op) ∧
      ∃ Q, IsMajority members.toFinset Q ∧
        ∀ n ∈ Q, LeaderLog.Reached (·.position) v n r.commit

structure Ledger (members : List NodeId) (shardMembers : ShardId → List NodeId)
    (first : NodeId) (s : System) : Prop where
  safe : Inv members shardMembers s
  log : LeaderLog.Inv (·.position) members.toFinset (view first s)
  servers : ∀ n ∈ members, Consistent members (view first s) n (s.servers n)
  network : ∀ m ∈ s.network, Founded members (view first s) m
  reports : ∀ r ∈ s.reports, Reported members (view first s) r
  rivals : ∀ e ∈ s.elections, e.shardId = none → ∃ m ∈ members, m ≠ e.candidate
  winners : ∀ w ∈ s.wins, w.shardId = none → w.node ∈ members ∧ ∃ m ∈ members, m ≠ w.node

end Facts

section Follows
variable {members : List NodeId} {v v' : LogState}

/-- The view takes a step or stays. -/
def Follows (members : List NodeId) (v v' : LogState) : Prop := v' = v ∨ LogStep members v v'

theorem Follows.inv (hf : Follows members v v')
    (h : LeaderLog.Inv (·.position) members.toFinset v) :
    LeaderLog.Inv (·.position) members.toFinset v' := by
  rcases hf with rfl | hs
  · exact h
  · exact h.step hs

theorem Follows.grows (hf : Follows members v v') : LeaderLog.Grows v v' := by
  rcases hf with rfl | hs
  · exact ⟨fun _ => le_rfl, fun _ => le_rfl, fun _ _ => id, fun _ => id, fun _ => id,
      fun _ => id, fun _ => id⟩
  · exact hs.grows

theorem Counted.follows (hf : Follows members v v')
    (h : LeaderLog.Inv (·.position) members.toFinset v) {n : NodeId} {p : Position}
    (hc : Counted v n p) : Counted v' n p := by
  rcases hc with hacked | ⟨l, hl, hrest⟩
  · rcases hf with rfl | hs
    · exact Or.inl hacked
    · exact Or.inl (hacked.step h hs)
  · exact Or.inr ⟨l, hf.grows.leaders l hl, hrest⟩

theorem Founded.follows (hf : Follows members v v')
    (h : LeaderLog.Inv (·.position) members.toFinset v) {m : Message}
    (hm : Founded members v m) : Founded members v' m := by
  cases m with
  | requestVote dst candidate term appliedOps last race =>
    cases race with
    | none => exact ⟨hm.1, hf.grows.bids _ hm.2⟩
    | some id => trivial
  | granted => trivial
  | leaderAnnounce dst nodeId epoch race =>
    cases race with
    | none => exact hm
    | some id => trivial
  | replicate dst op =>
    obtain ⟨n, hn⟩ := hm
    exact ⟨n, hf.grows.writes _ hn⟩
  | heartbeat dst hb => exact Counted.follows hf h hm

theorem Reported.follows (hf : Follows members v v')
    (h : LeaderLog.Inv (·.position) members.toFinset v) {r : CommitReport}
    (hr : Reported members v r) : Reported members v' r := by
  rcases hr with hone | hnone | ⟨hterm, hops, Q, hQ, hreached⟩
  · exact Or.inl hone
  · exact Or.inr (Or.inl hnone)
  · refine Or.inr (Or.inr ⟨hterm, ?_, Q, hQ, ?_⟩)
    · intro op hop
      rcases hops op hop with ⟨l, hl, hrest⟩ | ⟨n, hn, hrest⟩
      · exact Or.inl ⟨l, hf.grows.leaders l hl, hrest⟩
      · exact Or.inr ⟨n, hf.grows.writes _ hn, hrest⟩
    · intro n hn
      rcases hf with rfl | hs
      · exact hreached n hn
      · exact (hreached n hn).step h hs

/-- A server that neither led nor wrote anything new stays consistent. -/
theorem Consistent.follows (hf : Follows members v v')
    (h : LeaderLog.Inv (·.position) members.toFinset v) {n : NodeId} {st : AppState}
    (hc : Consistent members v n st)
    (hleaders : ∀ l ∈ v'.leaders, l.node = n → l ∈ v.leaders)
    (hwrites : ∀ op, (n, op) ∈ v'.writes → (n, op) ∈ v.writes) :
    Consistent members v' n st where
  primary := hc.primary
  leads := by
    intro hself
    obtain ⟨l, hl, hrest⟩ := hc.leads hself
    exact ⟨l, hf.grows.leaders l hl, hrest⟩
  epoch := fun l hl hn => hc.epoch l (hleaders l hl hn) hn
  logWritten := by
    intro op hop
    obtain ⟨m, hm⟩ := hc.logWritten op hop
    exact ⟨m, hf.grows.writes _ hm⟩
  logBelow := hc.logBelow
  seq := fun op hop => hc.seq op (hwrites op hop)
  rows := fun row hrow => (hc.rows row hrow).follows hf h
  latest := by
    intro hvoted
    obtain ⟨q, hq⟩ := hc.latest hvoted
    exact ⟨q, hf.grows.votes _ hq⟩

end Follows

section Next
variable {members : List NodeId} {shardMembers : ShardId → List NodeId} {first : NodeId}
  {s s' : System}

/-- A step taken by one node. -/
theorem Ledger.next (h : Ledger members shardMembers first s) (hsafe : Inv members shardMembers s')
    (hf : Follows members (view first s) (view first s')) (n : NodeId)
    (hothers : ∀ m, m ≠ n → s'.servers m = s.servers m)
    (hself : n ∈ members → Consistent members (view first s') n (s'.servers n))
    (hleaders : ∀ l ∈ (view first s').leaders, l ∈ (view first s).leaders ∨ l.node = n)
    (hwrites : ∀ w ∈ (view first s').writes, w ∈ (view first s).writes ∨ w.1 = n)
    (hnetwork : ∀ m ∈ s'.network, m ∈ s.network ∨ Founded members (view first s') m)
    (hreports : ∀ r ∈ s'.reports, r ∈ s.reports ∨ Reported members (view first s') r)
    (hrivals : ∀ e ∈ s'.elections, e.shardId = none → ∃ m ∈ members, m ≠ e.candidate)
    (hwinners : ∀ w ∈ s'.wins, w.shardId = none → w.node ∈ members ∧ ∃ m ∈ members, m ≠ w.node) :
    Ledger members shardMembers first s' where
  safe := hsafe
  log := hf.inv h.log
  servers := by
    intro m hm
    by_cases hmn : m = n
    · subst hmn
      exact hself hm
    · rw [hothers m hmn]
      refine (h.servers m hm).follows hf h.log ?_ ?_
      · intro l hl hnode
        rcases hleaders l hl with hold | hnew
        · exact hold
        · exact absurd (hnode.symm.trans hnew) hmn
      · intro op hop
        rcases hwrites _ hop with hold | hnew
        · exact hold
        · exact absurd hnew hmn
  network := by
    intro m hm
    rcases hnetwork m hm with hold | hnew
    · exact (h.network m hold).follows hf h.log
    · exact hnew
  reports := by
    intro r hr
    rcases hreports r hr with hold | hnew
    · exact (h.reports r hold).follows hf h.log
    · exact hnew
  rivals := hrivals
  winners := hwinners

/-- A step that changes one server in ways the view does not show. -/
theorem Ledger.quiet (h : Ledger members shardMembers first s) (msgs : List Message)
    (hsafe : Inv members shardMembers s') {n : NodeId} {st : AppState}
    (hs' : s' = (s.setServer n st).send msgs)
    (hview : view first (s.setServer n st) = view first s)
    (hst : n ∈ members → Consistent members (view first s) n st)
    (hmsgs : ∀ m ∈ msgs, Founded members (view first s) m) :
    Ledger members shardMembers first s' := by
  subst hs'
  rw [← view_send first (s.setServer n st) msgs] at hview
  refine h.next hsafe (Or.inl hview) n ?_ ?_ ?_ ?_ ?_ ?_ h.rivals h.winners
  · intro m hm
    simp [System.send, System.setServer, hm]
  · intro hn
    rw [hview]
    simpa [System.send, System.setServer] using hst hn
  · rw [hview]
    exact fun l hl => Or.inl hl
  · rw [hview]
    exact fun w hw => Or.inl hw
  · intro m hm
    rw [hview]
    rcases List.mem_append.mp hm with hm | hm
    · exact Or.inr (hmsgs m hm)
    · exact Or.inl hm
  · exact fun r hr => Or.inl hr

end Next

section Elections
variable {members : List NodeId} {shardMembers : ShardId → List NodeId} {first : NodeId}
  {s s' : System}

/-- A vote in a shard election does not show in the view. -/
theorem view_setCluster_shardVote (n : NodeId) (id : ShardId) (term : ℕ) (candidate : NodeId) :
    view first (s.setCluster n
      (recordVote (s.servers n).cluster (some id) term candidate)) = view first s :=
  view_setServer_same first s rfl rfl rfl rfl

theorem view_setCluster_vote (n : NodeId) (term : ℕ) (candidate : NodeId) :
    view first (s.setCluster n (recordVote (s.servers n).cluster none term candidate)) =
      { view first s with voted := Function.update (view first s).voted n term } := by
  rw [System.setCluster, view_setServer]
  simp [view, recordVote]

theorem Consistent.shardVote {v : LogState} {n : NodeId} {st : AppState}
    (hc : Consistent members v n st) (id : ShardId) (term : ℕ) (candidate : NodeId) :
    Consistent members v n { st with cluster := recordVote st.cluster (some id) term candidate } :=
  { hc with }

theorem Consistent.clusterVote {v : LogState} {n : NodeId} {st : AppState}
    (hc : Consistent members v n st) {term : ℕ} {candidate : NodeId} {q : Position}
    (hvote : ⟨n, candidate, term, q⟩ ∈ v.votes) :
    Consistent members v n { st with cluster := recordVote st.cluster none term candidate } :=
  { hc with latest := fun _ => ⟨q, hvote⟩ }

theorem Ledger.startElection (h : Ledger members shardMembers first s)
    (hsafe : Inv members shardMembers s') {n : NodeId} (hn : n ∈ members) {e : Election}
    {c : ClusterStateModel} (hrace : e.shardId = none)
    (hprimary : (s.servers n).cluster.primaryNodeId ≠ (s.servers n).cluster.localNodeId)
    (hstart : Started (s.servers n).cluster c e)
    (hs : s.beginElection n (some (e, c)) = some s') :
    Ledger members shardMembers first s' := by
  have hs' := (Option.some.inj hs).symm
  have hlocal := (h.safe.knows n hn).localId
  have hcand : e.candidate = n := hstart.candidate.trans hlocal
  have hc : c = recordVote (s.servers n).cluster none e.term n := by
    rw [hstart.voted, hlocal, hrace]
  have hterm : (view first s).voted n < e.term := by
    have := hstart.term
    rw [hrace] at this
    exact this
  have hview : view first s' = { view first s with
      voted := Function.update (view first s).voted n e.term
      votes := ⟨n, n, e.term, (view first s).last n⟩ :: (view first s).votes
      bids := ⟨n, e.term, (view first s).last n⟩ :: (view first s).bids } := by
    rw [hs', view_send, view_addElection, view_castVote, hc, view_setCluster_vote, hrace, hcand,
      hstart.last]
    simp [view]
  have hf : Follows members (view first s) (view first s') := by
    rw [hview]
    exact Or.inr (LeaderLog.Step.bid n e.term hterm)
  refine h.next hsafe hf n ?_ ?_ ?_ ?_ ?_ ?_ ?_ ?_
  · intro m hm
    simp [hs', System.send, System.addElection, System.castVote, System.setCluster,
      System.setServer, hm]
  · intro _
    have hself := (h.servers n hn).follows hf h.log (by rw [hview]; exact fun _ hl _ => hl)
      (by rw [hview]; exact fun _ hw => hw)
    have hvote : ⟨n, n, e.term, (view first s).last n⟩ ∈ (view first s').votes := by
      rw [hview]
      exact List.mem_cons_self
    have hserver : s'.servers n = { s.servers n with
        cluster := recordVote (s.servers n).cluster none e.term n } := by
      simp [hs', hc, System.send, System.addElection, System.castVote, System.setCluster,
        System.setServer]
    rw [hserver]
    exact hself.clusterVote hvote
  · rw [hview]
    exact fun l hl => Or.inl hl
  · rw [hview]
    exact fun w hw => Or.inl hw
  · intro m hm
    rw [hs'] at hm
    rcases List.mem_append.mp hm with hm | hm
    · right
      obtain ⟨p, -, rfl⟩ := List.mem_map.mp hm
      rw [hrace, hview]
      refine ⟨by omega, ?_⟩
      rw [hcand, hstart.last]
      exact List.mem_cons_self
    · exact Or.inl hm
  · rw [hs']
    exact fun r hr => Or.inl hr
  · intro e' he' hrace'
    rw [hs'] at he'
    rcases List.mem_cons.mp he' with rfl | he'
    · refine ⟨_, (h.servers n hn).primary, ?_⟩
      rw [hstart.candidate]
      exact hprimary
    · exact h.rivals e' he' hrace'
  · rw [hs']
    exact h.winners

theorem Ledger.startShardElection (h : Ledger members shardMembers first s)
    (hsafe : Inv members shardMembers s') {n : NodeId} (hn : n ∈ members) {e : Election}
    {c : ClusterStateModel} {id : ShardId} (hrace : e.shardId = some id)
    (hstart : Started (s.servers n).cluster c e)
    (hs : s.beginElection n (some (e, c)) = some s') :
    Ledger members shardMembers first s' := by
  have hs' := (Option.some.inj hs).symm
  have hc : c = recordVote (s.servers n).cluster (some id) e.term
      (s.servers n).cluster.localNodeId := by
    rw [hstart.voted, hrace]
  have hview : view first s' = view first s := by
    rw [hs', view_send, view_addElection, view_castVote, hrace, hc, view_setCluster_shardVote]
    simp
  refine h.next hsafe (Or.inl hview) n ?_ ?_ ?_ ?_ ?_ ?_ ?_ ?_
  · intro m hm
    simp [hs', System.send, System.addElection, System.castVote, System.setCluster,
      System.setServer, hm]
  · intro _
    have hserver : s'.servers n = { s.servers n with
        cluster := recordVote (s.servers n).cluster (some id) e.term
          (s.servers n).cluster.localNodeId } := by
      simp [hs', hc, System.send, System.addElection, System.castVote, System.setCluster,
        System.setServer]
    rw [hview, hserver]
    exact (h.servers n hn).shardVote id e.term _
  · rw [hview]
    exact fun l hl => Or.inl hl
  · rw [hview]
    exact fun w hw => Or.inl hw
  · intro m hm
    rw [hs'] at hm
    rcases List.mem_append.mp hm with hm | hm
    · right
      obtain ⟨p, -, rfl⟩ := List.mem_map.mp hm
      rw [hrace]
      trivial
    · exact Or.inl hm
  · rw [hs']
    exact fun r hr => Or.inl hr
  · intro e' he' hrace'
    rw [hs'] at he'
    rcases List.mem_cons.mp he' with rfl | he'
    · rw [hrace] at hrace'
      cases hrace'
    · exact h.rivals e' he' hrace'
  · rw [hs']
    exact h.winners

/-- Taking over the cluster in a newer term, by an announcement or by winning. -/
theorem Consistent.promote {v v' : LogState} {n k : NodeId} {st : AppState} {epoch nowMs : ℕ}
    (hf : Follows members v v') (h : LeaderLog.Inv (·.position) members.toFinset v)
    (hc : Consistent members v n st) (hepoch : st.cluster.leadershipEpoch < epoch)
    (hk : k ∈ members) (hleads : k = n → ∃ l ∈ v'.leaders, l.node = n ∧ l.term = epoch)
    (hleaders : ∀ l ∈ v'.leaders, l.node = n → l ∈ v.leaders ∨ l.term = epoch)
    (hwrites : ∀ op, (n, op) ∈ v'.writes → (n, op) ∈ v.writes) :
    Consistent members v' n { st with
      cluster := applyWholeClusterPromotion st.cluster k epoch nowMs } where
  primary := hk
  leads := hleads
  epoch := by
    intro l hl hn
    rcases hleaders l hl hn with hold | hnew
    · exact (hc.epoch l hold hn).trans hepoch.le
    · exact hnew.le
  logWritten := by
    intro op hop
    obtain ⟨m, hm⟩ := hc.logWritten op hop
    exact ⟨m, hf.grows.writes _ hm⟩
  logBelow := by
    intro op hop
    have hle := hc.logBelow op hop
    rw [Position.le_iff] at hle ⊢
    dsimp only [applyWholeClusterPromotion] at hle ⊢
    omega
  seq := fun op hop => hc.seq op (hwrites op hop)
  rows := by
    intro row hrow
    obtain ⟨old, hold, rfl⟩ := List.mem_map.mp hrow
    rw [promoteNode_nodeId, promoteNode_applied]
    exact (hc.rows old hold).follows hf h
  latest := by
    intro hvoted
    obtain ⟨q, hq⟩ := hc.latest hvoted
    exact ⟨q, hf.grows.votes _ hq⟩

/-- No other node has won the term, and the winner itself would know. -/
theorem Ledger.new_term (h : Ledger members shardMembers first s) {e : Election}
    (he : e ∈ s.elections) (hrace : e.shardId = none) {heard : List NodeId}
    (hvotes : e.quorum ≤ s.countVotes e heard)
    (hepoch : (s.servers e.candidate).cluster.leadershipEpoch < e.term) :
    ∀ l ∈ (view first s).leaders, l.term ≠ e.term := by
  intro l hl hterm
  have hmember := (h.safe.contest e he).member
  have hnode : l.node = e.candidate := by
    rcases (mem_view_leaders first s).mp hl with ⟨w, hw, hwrace, rfl⟩ | rfl
    · have hwon := h.safe.won w hw
      have helected := h.safe.elected he hvotes
      dsimp only at hterm
      rw [hwrace, hterm] at hwon
      rw [hrace] at helected
      exact hwon.unique h.safe.recorded helected
    · dsimp only at hterm
      omega
  have hle := (h.servers _ hmember).epoch l hl hnode
  omega

theorem Ledger.finishElection (h : Ledger members shardMembers first s)
    (hsafe : Inv members shardMembers s') {e : Election} {heard : List NodeId}
    (hrace : e.shardId = none) (hs : s.finish e heard = some s') :
    Ledger members shardMembers first s' := by
  unfold System.finish at hs
  split_ifs at hs with he
  dsimp only at hs
  split at hs
  · cases hs
  rename_i c hpromote
  have hs' := (Option.some.inj hs).symm
  have hmember := (h.safe.contest e he).member
  have hlocal := (h.safe.knows _ hmember).localId
  obtain ⟨hvotes, -⟩ := promoteElected_spec (h.safe.knows _ hmember) h.safe.shardNodup rfl
    (h.safe.contest e he) hpromote
  obtain ⟨hepoch, hc⟩ := promoteElected_cluster hrace hpromote
  rw [hlocal] at hc
  have hset : view first (s.setCluster e.candidate c) = view first s :=
    view_setCluster_same first s (by rw [hc]; rfl) (by rw [hc]; rfl)
  have hview : view first s' = { view first s with
      leaders := ⟨e.candidate, e.term, e.last, (view first s).held e.candidate⟩ ::
        (view first s).leaders } := by
    rw [hs', view_send, view_addWin, hset, hrace]
    rfl
  have hf : Follows members (view first s) (view first s') := by
    obtain ⟨Q, hQ, hballots⟩ := h.safe.elected he hvotes
    rw [hview]
    refine Or.inr (LeaderLog.Step.win e.candidate e.term e.last Q ?_ ?_ ?_
      (h.new_term he hrace hvotes hepoch))
    · exact (mem_view_bids first s).mpr ⟨e, he, hrace, rfl⟩
    · rwa [hrace] at hQ
    · intro v hv
      obtain ⟨g, hg, hballot⟩ := hballots v hv
      refine ⟨g.last, (mem_view_votes first s).mpr ⟨g, hg, ?_⟩⟩
      rw [hballot]
      exact ⟨hrace, rfl⟩
  refine h.next hsafe hf e.candidate ?_ ?_ ?_ ?_ ?_ ?_ ?_ ?_
  · intro m hm
    simp [hs', System.send, System.addWin, System.setCluster, System.setServer, hm]
  · intro _
    have hserver : s'.servers e.candidate = { s.servers e.candidate with
        cluster := applyWholeClusterPromotion (s.servers e.candidate).cluster e.candidate e.term
          e.nowMs } := by
      simp [hs', hc, System.send, System.addWin, System.setCluster, System.setServer]
    rw [hserver]
    refine (h.servers _ hmember).promote hf h.log hepoch hmember ?_ ?_ ?_
    · intro _
      rw [hview]
      exact ⟨_, List.mem_cons_self, rfl, rfl⟩
    · intro l hl _
      rw [hview] at hl
      rcases List.mem_cons.mp hl with rfl | hl
      · exact Or.inr rfl
      · exact Or.inl hl
    · rw [hview]
      exact fun _ hop => hop
  · intro l hl
    rw [hview] at hl
    rcases List.mem_cons.mp hl with rfl | hl
    · exact Or.inr rfl
    · exact Or.inl hl
  · rw [hview]
    exact fun w hw => Or.inl hw
  · intro m hm
    rw [hs'] at hm
    rcases List.mem_append.mp hm with hm | hm
    · right
      obtain ⟨p, hp, rfl⟩ := List.mem_map.mp hm
      rw [hrace] at hp ⊢
      refine ⟨?_, hmember⟩
      have hne := (List.mem_filter.mp hp).2
      rw [hc] at hne
      simp only [decide_eq_true_eq] at hne
      intro heq
      apply hne
      rw [heq]
      exact hlocal.symm
    · exact Or.inl hm
  · rw [hs']
    exact fun r hr => Or.inl hr
  · rw [hs']
    exact h.rivals
  · intro w hw hwrace
    rw [hs'] at hw
    rcases List.mem_cons.mp hw with rfl | hw
    · exact ⟨hmember, h.rivals e he hrace⟩
    · exact h.winners w hw hwrace

theorem Ledger.finishShardElection (h : Ledger members shardMembers first s)
    (hsafe : Inv members shardMembers s') {e : Election} {heard : List NodeId} {id : ShardId}
    (hrace : e.shardId = some id) (hs : s.finish e heard = some s') :
    Ledger members shardMembers first s' := by
  unfold System.finish at hs
  split_ifs at hs with he
  dsimp only at hs
  split at hs
  · cases hs
  rename_i c hpromote
  have hs' := (Option.some.inj hs).symm
  have hmember := (h.safe.contest e he).member
  obtain ⟨shards, hc⟩ : ∃ shards, c = { (s.servers e.candidate).cluster with shards := shards } :=
    ⟨_, promoteElected_shard hrace hpromote⟩
  have hset : view first (s.setCluster e.candidate c) = view first s :=
    view_setCluster_same first s (by rw [hc]) (by rw [hc])
  have hview : view first s' = view first s := by
    rw [hs', view_send, view_addWin, hset, hrace]
    rfl
  refine h.next hsafe (Or.inl hview) e.candidate ?_ ?_ ?_ ?_ ?_ ?_ ?_ ?_
  · intro m hm
    simp [hs', System.send, System.addWin, System.setCluster, System.setServer, hm]
  · intro _
    have hserver : s'.servers e.candidate = { s.servers e.candidate with
        cluster := { (s.servers e.candidate).cluster with shards := shards } } := by
      simp [hs', hc, System.send, System.addWin, System.setCluster, System.setServer]
    rw [hserver, hview]
    exact { h.servers _ hmember with }
  · rw [hview]
    exact fun l hl => Or.inl hl
  · rw [hview]
    exact fun w hw => Or.inl hw
  · intro m hm
    rw [hs'] at hm
    rcases List.mem_append.mp hm with hm | hm
    · right
      obtain ⟨p, hp, rfl⟩ := List.mem_map.mp hm
      rw [hrace]
      trivial
    · exact Or.inl hm
  · rw [hs']
    exact fun r hr => Or.inl hr
  · rw [hs']
    exact h.rivals
  · intro w hw hwrace
    rw [hs'] at hw
    rcases List.mem_cons.mp hw with rfl | hw
    · dsimp only at hwrace
      rw [hrace] at hwrace
      cases hwrace
    · exact h.winners w hw hwrace

end Elections

section Deliveries
variable {members : List NodeId} {shardMembers : ShardId → List NodeId} {first : NodeId}
  {s s' : System}

theorem Ledger.grantVote (h : Ledger members shardMembers first s)
    (hsafe : Inv members shardMembers s') {dst candidate : NodeId} {term appliedOps : ℕ}
    {last : Position} {c : ClusterStateModel} (hdst : dst ∈ members)
    (hm : .requestVote dst candidate term appliedOps last none ∈ s.network)
    (hvote : clusterRequestVote (s.servers dst).cluster candidate term appliedOps last none =
      .ok (true, c))
    (hown : dst ≠ candidate → ∀ op ∈ (s.servers dst).replicationLog, op.position ≤ last)
    (hs' : s' = ((s.setCluster dst c).castVote dst candidate none term last).send
      [.granted dst candidate term none]) :
    Ledger members shardMembers first s' := by
  obtain ⟨hpos, hbid⟩ := h.network _ hm
  have hgranted := clusterRequestVote_ok hvote
  simp only [true_and, Bool.true_eq_false, false_and, or_false] at hgranted
  obtain ⟨hlast, hterm, hc⟩ := hgranted
  have hview : view first s' = { view first s with
      voted := Function.update (view first s).voted dst term
      votes := ⟨dst, candidate, term, last⟩ :: (view first s).votes } := by
    rw [hs', view_send, view_castVote, hc, view_setCluster_vote]
    simp
  have hok : (view first s).voted dst < term ∨ (view first s).voted dst = term ∧
      ∃ q, ⟨dst, candidate, term, q⟩ ∈ (view first s).votes := by
    rcases hterm with hlt | heq
    · exact Or.inl hlt
    · obtain ⟨hepoch, hfor⟩ := Prod.mk.inj heq
      obtain ⟨q, hq⟩ := (h.servers dst hdst).latest (hepoch ▸ hpos)
      rw [hepoch, hfor] at hq
      exact Or.inr ⟨hepoch, q, hq⟩
  have hf : Follows members (view first s) (view first s') := by
    rw [hview]
    exact Or.inr (LeaderLog.Step.vote dst candidate term last hbid hlast hown hok)
  refine h.next hsafe hf dst ?_ ?_ ?_ ?_ ?_ ?_ ?_ ?_
  · intro m hm
    simp [hs', System.send, System.castVote, System.setCluster, System.setServer, hm]
  · intro _
    have hself := (h.servers dst hdst).follows hf h.log (by rw [hview]; exact fun _ hl _ => hl)
      (by rw [hview]; exact fun _ hw => hw)
    have hnew : ⟨dst, candidate, term, last⟩ ∈ (view first s').votes := by
      rw [hview]
      exact List.mem_cons_self
    have hserver : s'.servers dst = { s.servers dst with
        cluster := recordVote (s.servers dst).cluster none term candidate } := by
      simp [hs', hc, System.send, System.castVote, System.setCluster, System.setServer]
    rw [hserver]
    exact hself.clusterVote hnew
  · rw [hview]
    exact fun l hl => Or.inl hl
  · rw [hview]
    exact fun w hw => Or.inl hw
  · intro m hm
    rw [hs'] at hm
    rcases List.mem_append.mp hm with hm | hm
    · rw [List.mem_singleton.mp hm]
      exact Or.inr trivial
    · exact Or.inl hm
  · rw [hs']
    exact fun r hr => Or.inl hr
  · rw [hs']
    exact h.rivals
  · rw [hs']
    exact h.winners

theorem Ledger.grantShardVote (h : Ledger members shardMembers first s)
    (hsafe : Inv members shardMembers s') {dst candidate : NodeId} {term appliedOps : ℕ}
    {last : Position} {c : ClusterStateModel} {id : ShardId} (hdst : dst ∈ members)
    (hvote : clusterRequestVote (s.servers dst).cluster candidate term appliedOps last
      (some id) = .ok (true, c))
    (hs' : s' = ((s.setCluster dst c).castVote dst candidate (some id) term last).send
      [.granted dst candidate term (some id)]) :
    Ledger members shardMembers first s' := by
  have hgranted := clusterRequestVote_ok hvote
  simp only [true_and, Bool.true_eq_false, false_and, or_false] at hgranted
  obtain ⟨-, -, hc⟩ := hgranted
  have hview : view first s' = view first s := by
    rw [hs', view_send, view_castVote, hc, view_setCluster_shardVote]
    simp
  refine h.next hsafe (Or.inl hview) dst ?_ ?_ ?_ ?_ ?_ ?_ ?_ ?_
  · intro m hm
    simp [hs', System.send, System.castVote, System.setCluster, System.setServer, hm]
  · intro _
    have hserver : s'.servers dst = { s.servers dst with
        cluster := recordVote (s.servers dst).cluster (some id) term candidate } := by
      simp [hs', hc, System.send, System.castVote, System.setCluster, System.setServer]
    rw [hserver, hview]
    exact (h.servers dst hdst).shardVote id term candidate
  · rw [hview]
    exact fun l hl => Or.inl hl
  · rw [hview]
    exact fun w hw => Or.inl hw
  · intro m hm
    rw [hs'] at hm
    rcases List.mem_append.mp hm with hm | hm
    · rw [List.mem_singleton.mp hm]
      exact Or.inr trivial
    · exact Or.inl hm
  · rw [hs']
    exact fun r hr => Or.inl hr
  · rw [hs']
    exact h.rivals
  · rw [hs']
    exact h.winners

theorem Ledger.requestVote (h : Ledger members shardMembers first s)
    (hsafe : Inv members shardMembers s') {dst candidate : NodeId} {term appliedOps nowMs : ℕ}
    {last : Position} {race : Option ShardId} (hdst : dst ∈ members)
    (hm : .requestVote dst candidate term appliedOps last race ∈ s.network)
    (hcareful : Careful s (.deliver (.requestVote dst candidate term appliedOps last race) nowMs))
    (hs : s.receive nowMs (.requestVote dst candidate term appliedOps last race) = some s') :
    Ledger members shardMembers first s' := by
  simp only [System.receive] at hs
  split at hs
  · rename_i c hvote
    have hs' := (Option.some.inj hs).symm
    cases race with
    | none =>
      refine h.grantVote hsafe hdst hm hvote ?_ hs'
      exact hcareful (by simp [hvote, Except.toOption])
    | some id => exact h.grantShardVote hsafe hdst hvote hs'
  · rename_i c hvote
    rcases clusterRequestVote_ok hvote with ⟨htrue, -⟩ | ⟨-, rfl⟩
    · cases htrue
    · refine h.quiet [] hsafe (Option.some.inj hs).symm ?_ (h.servers dst) (by simp)
      exact view_setCluster_same first s rfl rfl
  · cases hs
    exact h

theorem Ledger.announce (h : Ledger members shardMembers first s)
    (hsafe : Inv members shardMembers s') {dst nodeId : NodeId} {epoch nowMs : ℕ}
    {race : Option ShardId} (hm : .leaderAnnounce dst nodeId epoch race ∈ s.network)
    (hs : s.receive nowMs (.leaderAnnounce dst nodeId epoch race) = some s') :
    Ledger members shardMembers first s' := by
  simp only [System.receive] at hs
  split at hs
  · rename_i c hannounce
    have hs' := (Option.some.inj hs).symm
    rcases clusterLeaderAnnounce_ok hannounce with rfl | ⟨rfl, hepoch, rfl⟩ | ⟨id, -, rfl⟩
    · refine h.quiet [] hsafe hs' ?_ (h.servers dst) (by simp)
      exact view_setCluster_same first s rfl rfl
    · refine h.quiet [] hsafe hs' ?_ ?_ (by simp)
      · exact view_setCluster_same first s rfl rfl
      · intro hdst
        obtain ⟨hne, hmember⟩ := h.network _ hm
        exact (h.servers dst hdst).promote (Or.inl rfl) h.log hepoch hmember
          (fun heq => absurd heq.symm hne) (fun _ hl _ => Or.inl hl) (fun _ hop => hop)
    · refine h.quiet [] hsafe hs' ?_ ?_ (by simp)
      · exact view_setCluster_same first s rfl rfl
      · exact fun hdst => { h.servers dst hdst with }
  · cases hs
    exact h

theorem Ledger.replicate (h : Ledger members shardMembers first s)
    (hsafe : Inv members shardMembers s') {dst : NodeId} {op : ReplicationLogEntry} {nowMs : ℕ}
    (hm : .replicate dst op ∈ s.network)
    (hcareful : Careful s (.deliver (.replicate dst op) nowMs))
    (hs : s.receive nowMs (.replicate dst op) = some s') :
    Ledger members shardMembers first s' := by
  have hs' := (Option.some.inj hs).symm
  by_cases happly : decideReplicationApply (s.servers dst).cluster.replication.lastApplied
      op.position = .apply
  · rw [handleReplicated_of_apply happly] at hs'
    obtain ⟨hvoted, hexact⟩ := hcareful happly
    have hview : view first s' = { view first s with
        held := Function.update (view first s).held dst ((view first s).held dst ++ [op])
        last := Function.update (view first s).last dst op.position } := by
      rw [hs', view_setServer]
      simp [view, noteAppliedReplication]
    have hf : Follows members (view first s) (view first s') := by
      rw [hview]
      refine Or.inr (LeaderLog.Step.apply dst op (h.network _ hm) hvoted ?_)
      rcases decideReplicationApply_apply.mp happly with hnewer | hnext
      · right
        refine ⟨hnewer, fun x => ?_⟩
        rw [← mem_logBefore]
        exact ⟨(hexact hnewer).1 x, (hexact hnewer).2 x⟩
      · exact Or.inl hnext
    refine h.next hsafe hf dst ?_ ?_ ?_ ?_ ?_ ?_ ?_ ?_
    · intro m hm
      simp [hs', System.setServer, hm]
    · intro hdst
      have hself := (h.servers dst hdst).follows hf h.log (by rw [hview]; exact fun _ hl _ => hl)
        (by rw [hview]; exact fun _ hw => hw)
      have hserver : s'.servers dst = { s.servers dst with
          engine := (s.servers dst).engine ++ [op]
          cluster := noteAppliedReplication (s.servers dst).cluster op.position } := by
        simp [hs', System.setServer]
      rw [hserver]
      exact { hself with }
    · rw [hview]
      exact fun l hl => Or.inl hl
    · rw [hview]
      exact fun w hw => Or.inl hw
    · rw [hs']
      exact fun m hm => Or.inl hm
    · rw [hs']
      exact fun r hr => Or.inl hr
    · rw [hs']
      exact h.rivals
    · rw [hs']
      exact h.winners
  · rw [handleReplicated_of_skip happly] at hs'
    refine h.quiet [] hsafe hs' ?_ (h.servers dst) (by simp)
    exact view_setServer_same first s rfl rfl rfl rfl

theorem Ledger.hear (h : Ledger members shardMembers first s)
    (hsafe : Inv members shardMembers s') {dst : NodeId} {hb : Heartbeat} {nowMs : ℕ}
    (hm : .heartbeat dst hb ∈ s.network)
    (hs : s.receive nowMs (.heartbeat dst hb) = some s') :
    Ledger members shardMembers first s' := by
  simp only [System.receive] at hs
  split at hs
  · rename_i c hheard
    have hs' := (Option.some.inj hs).symm
    obtain rfl := clusterNodeHeartbeat_ok hheard
    refine h.quiet [] hsafe hs' ?_ ?_ (by simp)
    · exact view_setCluster_same first s rfl rfl
    · intro hdst
      have hself := h.servers dst hdst
      refine { hself with rows := ?_ }
      intro row hrow
      rcases mem_modifyNode hrow with hold | ⟨old, hold, hid, rfl⟩
      · exact hself.rows row hold
      · have hcounted : Counted (view first s) hb.nodeId hb.applied := h.network _ hm
        dsimp only [heardFrom]
        split_ifs
        · rw [hid]
          exact hcounted
        · exact hself.rows old hold
  · cases hs
    exact h

end Deliveries

section Primaries
variable {members : List NodeId} {shardMembers : ShardId → List NodeId} {first : NodeId}
  {s s' : System}

theorem Ledger.clientWrite (h : Ledger members shardMembers first s)
    (hsafe : Inv members shardMembers s') {n : NodeId} (hn : n ∈ members)
    {method params : String} {autoFailover : Bool} {nowMs timeoutMs : ℕ}
    (hcareful : Careful s (.write n method params autoFailover nowMs timeoutMs))
    (hs : s.clientWrite n method params autoFailover nowMs timeoutMs = some s') :
    Ledger members shardMembers first s' := by
  unfold System.clientWrite at hs
  split at hs
  · cases hs
  rename_i hguard
  split at hs
  · cases hs
  rename_i st op hrecord
  have hs' := (Option.some.inj hs).symm
  obtain ⟨henabled, hop, rfl⟩ := recordReplicationOp_some hrecord
  have hself := h.servers n hn
  have hprimary := enforceClusterWriteGuard_ok henabled hguard
  rw [(h.safe.knows n hn).localId] at hprimary
  have hposition : op.position = ⟨(s.servers n).cluster.leadershipEpoch,
      (s.servers n).cluster.replication.opSeq + 1⟩ := by
    rw [hop]
    rfl
  have hview : view first s' = { view first s with
      held := Function.update (view first s).held n ((view first s).held n ++ [op])
      own := Function.update (view first s).own n (appendOp (s.servers n) op).replicationLog
      writes := (n, op) :: (view first s).writes } := by
    rw [hs', view_send, view_addWrite, view_setServer]
    simp [view, appendOp]
  have hf : Follows members (view first s) (view first s') := by
    rw [hview]
    refine Or.inr (LeaderLog.Step.write n op _ ?_ ?_ ?_ ?_ ?_
      (mem_replicationLog_appendOp (s.servers n) op) ?_)
    · rw [hposition]
      exact hself.leads hprimary
    · rw [hposition]
      exact hcareful.1
    · rw [hposition]
      exact hcareful.2
    · intro o ho
      rw [hposition]
      exact Nat.lt_succ_of_le (hself.seq o ho)
    · rw [hposition]
      exact Nat.le_add_left 1 _
    · intro o ho
      refine (hself.logBelow o ho).trans ?_
      rw [hposition, Position.le_iff]
      exact Or.inr ⟨rfl, Nat.le_succ _⟩
  refine h.next hsafe hf n ?_ ?_ ?_ ?_ ?_ ?_ ?_ ?_
  · intro m hm
    simp [hs', System.send, System.addWrite, System.setServer, hm]
  · intro _
    have hserver : s'.servers n = appendOp (s.servers n) op := by
      simp [hs', System.send, System.addWrite, System.setServer]
    rw [hserver, hview]
    rw [hview] at hf
    have hseq : (appendOp (s.servers n) op).cluster.replication.opSeq =
        (s.servers n).cluster.replication.opSeq + 1 := by
      simp [appendOp, hposition]
    refine { primary := hself.primary, leads := hself.leads, epoch := hself.epoch,
             logWritten := ?_, logBelow := ?_, seq := ?_, rows := ?_, latest := hself.latest }
    · intro o ho
      rcases of_mem_replicationLog_appendOp ho with hold | rfl
      · obtain ⟨m, hm⟩ := hself.logWritten o hold
        exact ⟨m, List.mem_cons_of_mem _ hm⟩
      · exact ⟨n, List.mem_cons_self⟩
    · intro o ho
      rw [hseq]
      change o.position ≤ ⟨(s.servers n).cluster.leadershipEpoch, _⟩
      rcases of_mem_replicationLog_appendOp ho with hold | rfl
      · refine (hself.logBelow o hold).trans ?_
        rw [Position.le_iff]
        exact Or.inr ⟨rfl, Nat.le_succ _⟩
      · exact hposition.le
    · intro o ho
      rw [hseq]
      rcases List.mem_cons.mp ho with heq | ho
      · rw [(Prod.mk.inj heq).2, hposition]
      · exact Nat.le_succ_of_le (hself.seq o ho)
    · exact fun row hrow => (hself.rows row hrow).follows hf h.log
  · rw [hview]
    exact fun l hl => Or.inl hl
  · intro w hw
    rw [hview] at hw
    rcases List.mem_cons.mp hw with rfl | hw
    · exact Or.inr rfl
    · exact Or.inl hw
  · intro m hm
    rw [hs'] at hm
    rcases List.mem_append.mp hm with hm | hm
    · right
      obtain ⟨t, -, rfl⟩ := List.mem_map.mp hm
      rw [hview]
      exact ⟨n, List.mem_cons_self⟩
    · exact Or.inl hm
  · rw [hs']
    exact fun r hr => Or.inl hr
  · rw [hs']
    exact h.rivals
  · rw [hs']
    exact h.winners

theorem Ledger.catchUp (h : Ledger members shardMembers first s)
    (hsafe : Inv members shardMembers s') {n : NodeId} (hn : n ∈ members)
    (hs : s.catchUp n = some s') : Ledger members shardMembers first s' := by
  unfold System.catchUp at hs
  dsimp only at hs
  split_ifs at hs
  have hself : s.setServer n (s.servers n) = s := by
    simp [System.setServer, Function.update_eq_self]
  have hs' := (Option.some.inj hs).symm
  rw [← hself] at hs'
  refine h.quiet _ hsafe hs' (by rw [hself]) (h.servers n) ?_
  intro m hm
  obtain ⟨op, hop, rfl⟩ := List.mem_map.mp hm
  rw [hself] at hop
  exact (h.servers _ (h.servers n hn).primary).logWritten op (mem_of_mem_fetch hop)

/-- A node that advertises its position in a heartbeat has been counted there. -/
theorem Ledger.counted (h : Ledger members shardMembers first s) {n : NodeId} (hn : n ∈ members) :
    Counted (view first s) n (localPosition (s.servers n).cluster) := by
  unfold localPosition
  split_ifs with hprimary
  · right
    apply (h.servers n hn).leads
    rw [← hprimary, (h.safe.knows n hn).localId]
  · exact Or.inl (h.log.acked_last n)

end Primaries

section Reports
variable {members : List NodeId} {shardMembers : ShardId → List NodeId} {first : NodeId}
  {s s' : System}

/-- A majority by the count over the member table. -/
theorem Knows.majority {n : NodeId} {c : ClusterStateModel}
    (hk : Knows members shardMembers n c) (hnodup : members.Nodup)
    {p : ClusterNode → Prop} [DecidablePred p]
    (hcount : clusterQuorumSize c.nodes.length ≤ (c.nodes.filter (p ·)).length) :
    IsMajority members.toFinset ((c.nodes.filter (p ·)).map (·.nodeId)).toFinset := by
  have hsub : ((c.nodes.filter (p ·)).map (·.nodeId)).Sublist (c.nodes.map (·.nodeId)) :=
    List.filter_sublist.map _
  have hids : ((c.nodes.filter (p ·)).map (·.nodeId)).Nodup :=
    (hk.nodeIds.nodup_iff.mpr hnodup).sublist hsub
  refine ⟨?_, ?_⟩
  · intro m hm
    rw [List.mem_toFinset] at hm ⊢
    exact hk.nodeIds.mem_iff.mp (hsub.subset hm)
  · rw [List.toFinset_card_of_nodup hnodup, List.toFinset_card_of_nodup hids, List.length_map,
      ← hk.nodeIds.length_eq, List.length_map]
    unfold clusterQuorumSize at hcount
    omega

theorem eq_zero_of_within_zero {p : Position} (h : Within p 0) : p = 0 := by
  obtain ⟨hterm, hseq⟩ := h
  simp only [Position.zero_term, Position.zero_seq] at hterm hseq
  exact Position.ext hterm.symm (by simpa using hseq)

/-- A node that leads the term of a commit position and has a write at or above it, or has been
counted there, has reached it. -/
theorem Ledger.reached_of_counted (h : Ledger members shardMembers first s) {m q : NodeId}
    {o : ReplicationLogEntry} {commit p : Position} (hw : (m, o) ∈ (view first s).writes)
    (ho : Within commit o.position) (hp : Within commit p) (hc : Counted (view first s) q p) :
    LeaderLog.Reached (·.position) (view first s) q commit := by
  rcases hc with hacked | ⟨l, hl, hnode, hterm⟩
  · exact ⟨p, hacked, hp⟩
  · have hmq := h.log.writer_unique hl hnode hw (hterm.trans (hp.1.trans ho.1.symm))
    rw [hmq] at hw
    exact ⟨o.position, h.log.acked_write q o hw, ho⟩

/-- What a primary holds at or below a commit position it has reached is the log of that
position's term. -/
theorem Ledger.inLog_of_own (h : Ledger members shardMembers first s) {n : NodeId}
    (hlead : ∃ l ∈ (view first s).leaders, l.node = n ∧
      l.term = (s.servers n).cluster.leadershipEpoch) {commit : Position}
    (hown : Within commit (ownPosition (s.servers n).cluster commit)) {o : ReplicationLogEntry}
    (ho : o ∈ (s.servers n).engine) (hle : o.position ≤ commit) :
    LeaderLog.InLog (·.position) (view first s) commit o := by
  obtain ⟨m, hm⟩ := h.log.held_written n o ho
  have hle' := hle
  rw [Position.le_iff] at hle'
  unfold ownPosition at hown
  split_ifs at hown with hterm
  · obtain ⟨l, hl, hnode, hlterm⟩ := hlead
    rcases hle' with hlt | ⟨heq, hseq⟩
    · exact Or.inl ⟨l, hl, by omega, h.log.held_base l hl o (hnode ▸ ho) (by omega)⟩
    · exact Or.inr ⟨m, hm, heq, hseq⟩
  · have hlast : o.position ≤ (view first s).last n := by
      refine hle.trans ?_
      rw [Position.le_iff]
      exact Or.inr ⟨hown.1.symm, hown.2⟩
    rcases h.log.exact_last n o ho hlast with ⟨l, hl, hlterm, hbase⟩ | ⟨k, hk, hoterm, -⟩
    · exact Or.inl ⟨l, hl, hlterm.trans hown.1, hbase⟩
    · have heq : o.position.term = commit.term := hoterm.trans hown.1
      have hseq : o.position.seq ≤ commit.seq := by omega
      exact Or.inr ⟨k, hk, heq, hseq⟩

/-- A commit position that is held has a write at or above it in its term. -/
theorem Ledger.exists_write (h : Ledger members shardMembers first s) {n : NodeId}
    (hn : n ∈ members) (hlead : ∃ l ∈ (view first s).leaders, l.node = n ∧
      l.term = (s.servers n).cluster.leadershipEpoch) {commit : Position} (hcommit : commit ≠ 0)
    (hown : Within commit (ownPosition (s.servers n).cluster commit))
    {row : ClusterNode} (hrow : row ∈ (s.servers n).cluster.nodes) (hother : row.nodeId ≠ n)
    (hwithin : Within commit row.applied) :
    ∃ m o, (m, o) ∈ (view first s).writes ∧ Within commit o.position := by
  have hfrom : ∀ p, LeaderLog.Written (·.position) (view first s) p → Within commit p →
      ∃ m o, (m, o) ∈ (view first s).writes ∧ Within commit o.position := by
    rintro p (rfl | ⟨m, o, hw, rfl⟩) hp
    · exact absurd (eq_zero_of_within_zero hp) hcommit
    · exact ⟨m, o, hw, hp⟩
  unfold ownPosition at hown
  split_ifs at hown with hterm
  · rcases (h.servers n hn).rows row hrow with hacked | ⟨l, hl, hnode, hlterm⟩
    · exact hfrom _ hacked.written hwithin
    · obtain ⟨l', hl', hnode', hlterm'⟩ := hlead
      have heq := h.log.leader_unique l hl l' hl' (by rw [hlterm, hlterm', hwithin.1, hterm])
      rw [← heq, hnode] at hnode'
      exact absurd hnode' hother
  · exact hfrom _ (h.log.acked_last n).written hown

theorem Ledger.reported (h : Ledger members shardMembers first s) {n : NodeId} (hn : n ∈ members)
    (hprimary : (s.servers n).cluster.localNodeId = (s.servers n).cluster.primaryNodeId)
    (hheld : CommitHeld (s.servers n).cluster) :
    Reported members (view first s) ⟨n, (s.servers n).cluster.leadershipEpoch,
      clusterCommitPosition (s.servers n).cluster, (s.servers n).engine.filter
        (·.position ≤ clusterCommitPosition (s.servers n).cluster)⟩ := by
  have hknows := h.safe.knows n hn
  have hlead := (h.servers n hn).leads (by rw [← hprimary, hknows.localId])
  by_cases honly : ∀ m ∈ members, m = n
  · exact Or.inl honly
  right
  by_cases hzero : clusterCommitPosition (s.servers n).cluster = 0
  · left
    dsimp only
    rw [hzero, List.filter_eq_nil_iff]
    intro o ho
    obtain ⟨m, hm⟩ := h.log.held_written n o ho
    have := h.log.write_pos m o hm
    simp only [decide_eq_true_eq, Position.le_iff, Position.zero_term, Position.zero_seq]
    omega
  right
  obtain ⟨hterm, hown, hcount⟩ := hheld.resolve_left hzero
  push Not at honly
  obtain ⟨other, hother, hne⟩ := honly
  have hmajority := hknows.majority h.safe.nodup hcount
  -- somebody besides the primary is counted
  obtain ⟨q, hq, hqn⟩ := hmajority.exists_ne (List.mem_toFinset.mpr hn)
    (List.mem_toFinset.mpr hother) (Ne.symm hne)
  obtain ⟨row, hrow, rfl⟩ := List.mem_map.mp (List.mem_toFinset.mp hq)
  obtain ⟨hmem, hwithin⟩ := List.mem_filter.mp hrow
  rw [hknows.localId, if_neg hqn, decide_eq_true_eq] at hwithin
  obtain ⟨m, o, hw, ho⟩ := h.exists_write hn hlead hzero hown hmem hqn hwithin
  refine ⟨hterm, ?_, _, hmajority, ?_⟩
  · intro op hop
    obtain ⟨hengine, hle⟩ := List.mem_filter.mp hop
    exact h.inLog_of_own hlead hown hengine (by simpa using hle)
  · intro k hk
    obtain ⟨row', hrow', rfl⟩ := List.mem_map.mp (List.mem_toFinset.mp hk)
    obtain ⟨hmem', hwithin'⟩ := List.mem_filter.mp hrow'
    rw [decide_eq_true_eq, hknows.localId] at hwithin'
    split_ifs at hwithin' with hlocal
    · rw [hlocal]
      unfold ownPosition at hown
      split_ifs at hown with hepoch
      · obtain ⟨l, hl, hnode, hlterm⟩ := hlead
        exact h.reached_of_counted hw ho hown (Or.inr ⟨l, hl, hnode, hlterm⟩)
      · exact ⟨_, h.log.acked_last n, hown⟩
    · exact h.reached_of_counted hw ho hwithin' ((h.servers n hn).rows row' hmem')

theorem runClusterHeartbeatOnce_fst (c : ClusterStateModel) :
    ∃ commit, (runClusterHeartbeatOnce c).1 =
        { c with replication := { c.replication with commit := commit } } ∧
      (c.localNodeId = c.primaryNodeId → commit = clusterCommitPosition c) := by
  dsimp only [runClusterHeartbeatOnce]
  split_ifs with hprimary
  · exact ⟨_, rfl, fun _ => rfl⟩
  · exact ⟨c.replication.commit, rfl, fun h => absurd h hprimary⟩

theorem mem_reports_reportCommit {s : System} {n : NodeId} {r : CommitReport}
    (hr : r ∈ (s.reportCommit n).reports) : r ∈ s.reports ∨
      (s.servers n).cluster.localNodeId = (s.servers n).cluster.primaryNodeId ∧
      r = ⟨n, (s.servers n).cluster.leadershipEpoch, (s.servers n).cluster.replication.commit,
        (s.servers n).engine.filter (·.position ≤ (s.servers n).cluster.replication.commit)⟩ := by
  unfold System.reportCommit at hr
  dsimp only at hr
  split_ifs at hr with hprimary
  · rcases List.mem_cons.mp hr with hnew | hold
    · exact Or.inr ⟨hprimary, hnew⟩
    · exact Or.inl hold
  · exact Or.inl hr

@[simp] theorem reportCommit_servers (s : System) (n : NodeId) :
    (s.reportCommit n).servers = s.servers := by
  unfold System.reportCommit
  dsimp only
  split_ifs <;> rfl

@[simp] theorem reportCommit_network (s : System) (n : NodeId) :
    (s.reportCommit n).network = s.network := by
  unfold System.reportCommit
  dsimp only
  split_ifs <;> rfl

@[simp] theorem reportCommit_elections (s : System) (n : NodeId) :
    (s.reportCommit n).elections = s.elections := by
  unfold System.reportCommit
  dsimp only
  split_ifs <;> rfl

@[simp] theorem reportCommit_wins (s : System) (n : NodeId) :
    (s.reportCommit n).wins = s.wins := by
  unfold System.reportCommit
  dsimp only
  split_ifs <;> rfl

theorem Ledger.beat (h : Ledger members shardMembers first s) {n : NodeId} (hn : n ∈ members)
    (hcareful : Careful s (.heartbeat n)) (hs' : s' = s.beat n)
    (hsafe : Inv members shardMembers s') : Ledger members shardMembers first s' := by
  obtain ⟨commit, hround, hcommit⟩ := runClusterHeartbeatOnce_fst (s.servers n).cluster
  have hset : view first (s.setCluster n (runClusterHeartbeatOnce (s.servers n).cluster).1) =
      view first s := view_setCluster_same first s (by rw [hround]) (by rw [hround])
  have hview : view first s' = view first s := by
    rw [hs', System.beat, view_send, view_reportCommit, hset]
  have hserver : s'.servers n = { s.servers n with cluster := { (s.servers n).cluster with
      replication := { (s.servers n).cluster.replication with commit := commit } } } := by
    rw [hs']
    simp [System.beat, System.send, System.setCluster, System.setServer, hround]
  refine h.next hsafe (Or.inl hview) n ?_ ?_ ?_ ?_ ?_ ?_ ?_ ?_
  · intro m hm
    rw [hs']
    simp [System.beat, System.send, System.setCluster, System.setServer, hm]
  · intro _
    rw [hserver, hview]
    exact { h.servers n hn with }
  · rw [hview]
    exact fun l hl => Or.inl hl
  · rw [hview]
    exact fun w hw => Or.inl hw
  · intro m hm
    rw [hs'] at hm
    rcases List.mem_append.mp hm with hm | hm
    · right
      split_ifs at hm
      · obtain ⟨p, -, rfl⟩ := List.mem_map.mp hm
        rw [hview]
        change Counted _ (s.servers n).cluster.localNodeId _
        rw [(h.safe.knows n hn).localId]
        exact h.counted hn
      · simp at hm
    · left
      simpa [System.setCluster, System.setServer] using hm
  · intro r hr
    rw [hs'] at hr
    rcases mem_reports_reportCommit hr with hold | ⟨hprimary, rfl⟩
    · exact Or.inl hold
    · right
      rw [hview]
      simp only [System.setCluster, System.setServer, Function.update_self, hround] at hprimary ⊢
      rw [hcommit hprimary]
      exact h.reported hn hprimary (hcareful hprimary)
  · rw [hs']
    simpa [System.beat, System.send, System.setCluster, System.setServer] using h.rivals
  · rw [hs']
    simpa [System.beat, System.send, System.setCluster, System.setServer] using h.winners

end Reports

section Run
variable {members : List NodeId} {shardMembers : ShardId → List NodeId} {first : NodeId}
  {s s' : System}

theorem Ledger.act (h : Ledger members shardMembers first s) {a : Action}
    (hcareful : Careful s a) (hs : s.act a = some s') : Ledger members shardMembers first s' := by
  have hsafe := h.safe.act hs
  cases a with
  | startElection n nowMs timeoutMs =>
    simp only [System.act, h.safe.same] at hs
    split_ifs at hs with hn
    rcases hstart : startClusterElection (s.servers n).cluster nowMs timeoutMs with _ | ⟨e, c⟩
    · simp [hstart, System.beginElection] at hs
    · obtain ⟨hrace, hprimary, hstarted, -⟩ :=
        startClusterElection_spec h.safe.nodup hn (h.safe.knows n hn) hstart
      rw [hstart] at hs
      exact h.startElection hsafe hn hrace hprimary hstarted hs
  | startShardElection n shardId nowMs timeoutMs =>
    simp only [System.act, h.safe.same] at hs
    split_ifs at hs with hn
    rcases hstart : SkeinDB.Cluster.startShardElection (s.servers n).cluster shardId nowMs
      timeoutMs with _ | ⟨e, c⟩
    · simp [hstart, System.beginElection] at hs
    · obtain ⟨hrace, hstarted, -⟩ :=
        startShardElection_spec h.safe.nodup hn (h.safe.knows n hn) hstart
      rw [hstart] at hs
      exact h.startShardElection hsafe hn hrace hstarted hs
  | finishElection e heard =>
    rcases hrace : e.shardId with _ | id
    · exact h.finishElection hsafe hrace hs
    · exact h.finishShardElection hsafe hrace hs
  | deliver m nowMs =>
    simp only [System.act, h.safe.same] at hs
    split_ifs at hs with hm
    cases m with
    | requestVote dst candidate term appliedOps last race =>
      exact h.requestVote hsafe hm.2 hm.1 hcareful hs
    | granted voter candidate term race => cases hs
    | leaderAnnounce dst nodeId epoch race => exact h.announce hsafe hm.1 hs
    | replicate dst op => exact h.replicate hsafe hm.1 hcareful hs
    | heartbeat dst hb => exact h.hear hsafe hm.1 hs
  | write n method params autoFailover nowMs timeoutMs =>
    simp only [System.act, h.safe.same] at hs
    split_ifs at hs with hn
    exact h.clientWrite hsafe hn hcareful hs
  | heartbeat n =>
    simp only [System.act, h.safe.same] at hs
    split_ifs at hs with hn
    exact h.beat hn hcareful (Option.some.inj hs).symm hsafe
  | catchUp n =>
    simp only [System.act, h.safe.same] at hs
    split_ifs at hs with hn
    exact h.catchUp hsafe hn hs

theorem Ledger.run {as : List Action} (h : Ledger members shardMembers first s)
    (hcareful : CarefulRun s as) (hs : s.run as = some s') :
    Ledger members shardMembers first s' := by
  induction as generalizing s with
  | nil =>
    cases hs
    exact h
  | cons a as ih =>
    unfold System.run at hs
    split at hs
    · cases hs
    · rename_i t hact
      exact ih (h.act hcareful.1 hact) (hcareful.2 t hact) hs

/-- A cluster as it starts: formed, with one primary, and with nothing written, applied, voted
or advertised. -/
structure Bootstrapped (members : List NodeId) (shardMembers : ShardId → List NodeId)
    (first : NodeId) (s : System) : Prop where
  formed : Formed members shardMembers s
  member : first ∈ members
  primary : ∀ n ∈ members, (s.servers n).cluster.primaryNodeId = first
  voted : ∀ n ∈ members, (s.servers n).cluster.votedEpoch = 0
  rows : ∀ n ∈ members, ∀ row ∈ (s.servers n).cluster.nodes, row.applied = 0
  epoch : ∀ n ∈ members, (s.servers n).cluster.leadershipEpoch = 0
  fresh : ∀ n, Fresh (s.servers n)
  log : ∀ n, (s.servers n).replicationLog = []
  writes : s.writes = []
  reports : s.reports = []

theorem Bootstrapped.acked (h : Bootstrapped members shardMembers first s) (n : NodeId) :
    LeaderLog.Acked (·.position) (view first s) n 0 where
  written := Or.inl rfl
  log := by
    rintro o (⟨l, hl, -, ho⟩ | ⟨m, hm, -⟩)
    · simp only [view, h.formed.wins, List.filterMap_nil, List.nil_append,
        List.mem_singleton] at hl
      simp [hl] at ho
    · simp [view, h.writes] at hm
  votes := by simp [view, h.formed.grants]
  led := by
    intro l hl _ hlt
    simp only [view, h.formed.wins, List.filterMap_nil, List.nil_append,
      List.mem_singleton] at hl
    simp [hl] at hlt
  covers := Or.inl (Position.zero_le _)

theorem Bootstrapped.log_inv (h : Bootstrapped members shardMembers first s) :
    LeaderLog.Inv (·.position) members.toFinset (view first s) := by
  have hleaders : (view first s).leaders = [⟨first, 0, 0, []⟩] := by
    simp [view, h.formed.wins]
  have hvotes : (view first s).votes = [] := by simp [view, h.formed.grants]
  have hbids : (view first s).bids = [] := by simp [view, h.formed.elections]
  have hwrites : (view first s).writes = [] := by simp [view, h.writes]
  have hheld : ∀ n, (view first s).held n = [] := fun n => (h.fresh n).engine
  have hlast : ∀ n, (view first s).last n = 0 := fun n => (h.fresh n).position
  constructor
  case acked_last =>
    intro n
    rw [hlast]
    exact h.acked n
  all_goals simp [hleaders, hvotes, hbids, hwrites, hheld]

theorem Bootstrapped.ledger (h : Bootstrapped members shardMembers first s) :
    Ledger members shardMembers first s where
  safe := h.formed.inv
  log := h.log_inv
  servers := by
    intro n hn
    constructor
    case primary =>
      rw [h.primary n hn]
      exact h.member
    case leads =>
      intro hself
      rw [h.primary n hn] at hself
      exact ⟨_, (mem_view_leaders first s).mpr (Or.inr rfl), hself, (h.epoch n hn).symm⟩
    case rows =>
      intro row hrow
      rw [h.rows n hn row hrow]
      exact Or.inl (h.acked row.nodeId)
    case epoch =>
      intro l hl _
      rcases (mem_view_leaders first s).mp hl with ⟨w, hw, -⟩ | rfl
      · simp [h.formed.wins] at hw
      · exact Nat.zero_le _
    all_goals simp [h.log, h.voted n hn, view, h.writes]
  network := by simp [h.formed.network]
  reports := by simp [h.reports]
  rivals := by simp [h.formed.elections]
  winners := by simp [h.formed.wins]

/-- Leader completeness, for runs that keep to the discipline: whoever wins the cluster holds
every operation at or below a commit position reported in an earlier term. -/
theorem leader_completeness {s₀ : System} {as : List Action}
    (hboot : Bootstrapped members shardMembers first s₀) (hcareful : CarefulRun s₀ as)
    (hrun : s₀.run as = some s) :
    ∀ w ∈ s.wins, w.shardId = none → ∀ r ∈ s.reports, r.epoch < w.term →
      ∀ op ∈ r.ops, op ∈ w.engine := by
  intro w hw hrace r hr hlt op hop
  have h := hboot.ledger.run hcareful hrun
  rcases h.reports r hr with hone | hnone | ⟨hterm, hops, Q, hQ, hreached⟩
  · obtain ⟨hmem, m, hm, hne⟩ := h.winners w hw hrace
    exact absurd ((hone m hm).trans (hone w.node hmem).symm) hne
  · simp [hnone] at hop
  · have hleader : ⟨w.node, w.term, w.last, w.engine⟩ ∈ (view first s).leaders :=
      (mem_view_leaders first s).mpr (Or.inl ⟨w, hw, hrace, rfl⟩)
    exact h.log.complete hQ hreached hleader (hterm.trans_lt hlt) (hops op hop)

theorem sampleSystem_bootstrapped :
    Bootstrapped ["a", "b", "c"] sampleShardMembers "a" sampleSystem where
  formed := sampleSystem_formed
  member := by decide
  primary := fun _ _ => rfl
  voted := fun _ _ => rfl
  rows := by
    intro n _
    change ∀ row ∈ (sampleServer "a").cluster.nodes, row.applied = 0
    decide
  epoch := fun _ _ => rfl
  fresh := sampleServer_fresh
  log := fun _ => rfl
  writes := rfl
  reports := rfl

/-- `a` writes, `b` applies and acknowledges, `a` reports the write committed. -/
def sampleCommit : List Action := [
  .write "a" "data.insert" "{}" true 8000 5000,
  .deliver (.replicate "b" (sampleOp 0 1)) 8000,
  .heartbeat "b",
  .deliver (.heartbeat "a" ⟨"b", 1, ⟨0, 1⟩, 0⟩) 8500,
  .heartbeat "a"]

/-- `b`, which holds the write, is elected by `c`. -/
def sampleSuccession : List Action := sampleCommit ++ [
  .startElection "b" 9000 5000,
  .deliver (.requestVote "c" "b" 1 1 ⟨0, 1⟩ none) 9000,
  .finishElection ⟨"b", none, 1, 2, ["a", "c"], 1, ⟨0, 1⟩, 9000, 5000⟩ ["c"]]

theorem sampleSuccession_isSome : (sampleSystem.run sampleSuccession).isSome := by decide

theorem leader_completeness_sample : ∃ s, sampleSystem.run sampleSuccession = some s ∧
    s.wins.map (fun w => (w.node, w.term)) = [("b", 1)] ∧
    s.reports.map (fun r => (r.node, r.commit, r.ops)) = [("a", ⟨0, 1⟩, [sampleOp 0 1])] ∧
    ∀ w ∈ s.wins, w.shardId = none → ∀ r ∈ s.reports, r.epoch < w.term →
      ∀ op ∈ r.ops, op ∈ w.engine := by
  have hrun := (Option.some_get sampleSuccession_isSome).symm
  exact ⟨_, hrun, by decide, by decide,
    leader_completeness sampleSystem_bootstrapped (by decide) hrun⟩

/-- `c`, which never applied the write, is elected by `a`, the primary that wrote it and
reported it committed. -/
def sampleLoss : List Action := sampleCommit ++ [
  .startElection "c" 9000 5000,
  .deliver (.requestVote "a" "c" 1 0 0 none) 9000,
  .finishElection ⟨"c", none, 1, 2, ["a", "b"], 0, 0, 9000, 5000⟩ ["a"]]

theorem sampleLoss_isSome : (sampleSystem.run sampleLoss).isSome := by decide

/-- A former primary votes by what it applied as a replica, not by what it wrote, so the
failover tick of `c` starts an election that `c` wins without the committed write. -/
theorem leader_incomplete : Bootstrapped ["a", "b", "c"] sampleShardMembers "a" sampleSystem ∧
    (sampleSystem.run sampleCommit).map (fun s => decideFailoverAction
      (s.servers "c").cluster.nodes (s.servers "c").cluster.primaryNodeId "c" 9000 5000) =
        some .promote ∧
    ∃ s, sampleSystem.run sampleLoss = some s ∧
      ∃ w ∈ s.wins, w.shardId = none ∧ ∃ r ∈ s.reports, r.epoch < w.term ∧
        ∃ op ∈ r.ops, op ∉ w.engine := by
  refine ⟨sampleSystem_bootstrapped, by decide, _, (Option.some_get sampleLoss_isSome).symm, ?_⟩
  decide

end Run

end SkeinDB.Cluster
