import SkeinDB.Cluster.System

/-!
# Election safety

`Knows` ties a server's view to the fixed membership: promotions only move roles around, so
it never changes. `Inv` is the election invariant of the system: the votes cast agree with
the votes the servers remember, every granted message has its vote, every election has the
vote of its candidate and asks distinct members, and every win has a majority of votes.
-/
namespace SkeinDB.Cluster
open Consensus

/-- The nodes that vote in a race: the shard's, or all of them. -/
def electorate (members : List NodeId) (shardMembers : ShardId → List NodeId) :
    Option ShardId → List NodeId
  | none => members
  | some shardId => shardMembers shardId

variable {members : List NodeId} {shardMembers : ShardId → List NodeId}

/-- The server of `n` has the membership in its tables. -/
structure Knows (members : List NodeId) (shardMembers : ShardId → List NodeId) (n : NodeId)
    (c : ClusterStateModel) : Prop where
  localId : c.localNodeId = n
  nodeIds : (c.nodes.map (·.nodeId)).Perm members
  shardIds : ∀ id shard, findShard c id = some shard →
    (shardNodeIds shard).Perm (shardMembers id)

section Knows
variable {n : NodeId} {c c' : ClusterStateModel}

/-- Only the ids, the member table and the shards matter. -/
theorem Knows.congr (h : Knows members shardMembers n c) (hlocal : c'.localNodeId = c.localNodeId)
    (hnodes : c'.nodes.map (·.nodeId) = c.nodes.map (·.nodeId)) (hshards : c'.shards = c.shards) :
    Knows members shardMembers n c' where
  localId := hlocal.trans h.localId
  nodeIds := hnodes ▸ h.nodeIds
  shardIds := by
    intro id shard hfind
    exact h.shardIds id shard (by rwa [findShard, hshards] at hfind)

theorem Knows.promoteShard (h : Knows members shardMembers n c) {k : NodeId} {id : ShardId}
    (hnodup : (shardMembers id).Nodup) (hk : k ∈ shardMembers id) (epoch : ℕ) :
    Knows members shardMembers n { c with
      shards := modifyShard (applyShardPromotion · k epoch) id c.shards } where
  localId := h.localId
  nodeIds := h.nodeIds
  shardIds := by
    intro id' shard hfind
    rw [findShard, find?_modifyShard _ (fun s => applyShardPromotion_shardId s k epoch)] at hfind
    split_ifs at hfind with hid
    · subst hid
      obtain ⟨old, hold, rfl⟩ := Option.map_eq_some_iff.mp hfind
      have hperm := h.shardIds id' old hold
      have hpromoted := shardNodeIds_applyShardPromotion epoch (hperm.nodup_iff.mpr hnodup)
        (hperm.mem_iff.mpr hk)
      exact hpromoted.trans hperm
    · exact h.shardIds id' shard hfind

theorem Knows.announce (h : Knows members shardMembers n c) {k : NodeId} {epoch nowMs : ℕ}
    {shardId : Option ShardId} (hnodup : ∀ id, (shardMembers id).Nodup)
    (hk : ∀ id, shardId = some id → k ∈ shardMembers id)
    (hc : clusterLeaderAnnounce c k epoch shardId nowMs = .ok c') :
    Knows members shardMembers n c' ∧ lastVote c' = lastVote c := by
  rcases clusterLeaderAnnounce_ok hc with rfl | ⟨-, -, rfl⟩ | ⟨id, hid, rfl⟩
  · exact ⟨h, rfl⟩
  · refine ⟨h.congr rfl ?_ rfl, ?_⟩
    · simp [applyWholeClusterPromotion, Function.comp_def]
    · exact lastVote_congr rfl rfl rfl
  · exact ⟨h.promoteShard (hnodup id) (hk id hid) epoch, lastVote_congr rfl rfl rfl⟩

theorem Knows.heartbeat (h : Knows members shardMembers n c) (hb : Heartbeat) (nowMs : ℕ) :
    Knows members shardMembers n (recordHeartbeat c hb nowMs) := by
  refine h.congr rfl ?_ rfl
  exact map_nodeId_modifyNode (f := heardFrom hb nowMs) (fun _ => rfl) _ _

end Knows

section Elections
variable {n : NodeId} {c c' : ClusterStateModel}

/-- What an election must satisfy for its votes to form a majority of the electorate. -/
structure Contest (members : List NodeId) (shardMembers : ShardId → List NodeId)
    (e : Election) : Prop where
  member : e.candidate ∈ members
  candidate : e.candidate ∈ electorate members shardMembers e.shardId
  nodup : e.peers.Nodup
  peers : ∀ p ∈ e.peers, p ∈ electorate members shardMembers e.shardId
  notPeer : e.candidate ∉ e.peers
  quorum : e.quorum = (electorate members shardMembers e.shardId).length / 2 + 1

/-- How an election starts: in a term after the last vote, with the node's own vote. -/
structure Started (c c' : ClusterStateModel) (e : Election) : Prop where
  candidate : e.candidate = c.localNodeId
  term : (lastVote c e.shardId).1 < e.term
  last : e.last = c.replication.lastApplied
  voted : c' = recordVote c e.shardId e.term c.localNodeId

theorem startClusterElection_started {nowMs timeoutMs : ℕ} {e : Election}
    (hstart : startClusterElection c nowMs timeoutMs = some (e, c')) :
    e.shardId = none ∧ c.primaryNodeId ≠ c.localNodeId ∧ Started c c' e ∧
      e.peers = (c.nodes.map (·.nodeId)).filter (· ≠ c.localNodeId) ∧
      e.quorum = clusterQuorumSize c.nodes.length := by
  unfold startClusterElection at hstart
  split_ifs at hstart with hbail
  obtain ⟨rfl, rfl⟩ := Prod.mk.inj (Option.some.inj hstart)
  refine ⟨rfl, fun heq => hbail (Or.inl heq), ⟨rfl, ?_, rfl, rfl⟩, rfl, rfl⟩
  simp only [lastVote]
  omega

theorem startShardElection_started {shardId : ShardId} {nowMs timeoutMs : ℕ} {e : Election}
    (hstart : startShardElection c shardId nowMs timeoutMs = some (e, c')) :
    e.shardId = some shardId ∧ Started c c' e ∧ ∃ shard, findShard c shardId = some shard ∧
      c.localNodeId ∈ shard.replicas ∧
      e.peers = ((c.nodes.map (·.nodeId)).filter fun n =>
        n ≠ c.localNodeId ∧ n ∈ shardNodeIds shard) ∧
      e.quorum = clusterQuorumSize (shardNodeIds shard).length := by
  unfold startShardElection at hstart
  rcases hfind : findShard c shardId with _ | shard
  · simp [hfind] at hstart
  · simp only [hfind] at hstart
    split_ifs at hstart with hbail
    obtain ⟨rfl, rfl⟩ := Prod.mk.inj (Option.some.inj hstart)
    refine ⟨rfl, ⟨rfl, ?_, rfl, rfl⟩, shard, rfl, ?_, rfl, rfl⟩
    · dsimp only
      omega
    · by_contra hreplica
      exact hbail (Or.inl hreplica)

theorem startClusterElection_spec {nowMs timeoutMs : ℕ} {e : Election}
    (hmembers : members.Nodup) (hn : n ∈ members) (h : Knows members shardMembers n c)
    (hstart : startClusterElection c nowMs timeoutMs = some (e, c')) :
    e.shardId = none ∧ c.primaryNodeId ≠ c.localNodeId ∧ Started c c' e ∧
      Contest members shardMembers e := by
  obtain ⟨hrace, hother, hstarted, hpeers, hquorum⟩ := startClusterElection_started hstart
  have hcandidate : e.candidate ∈ members := by
    rw [hstarted.candidate, h.localId]
    exact hn
  refine ⟨hrace, hother, hstarted, hcandidate, ?_, ?_, ?_, ?_, ?_⟩
  · rw [hrace]
    exact hcandidate
  · rw [hpeers]
    exact (h.nodeIds.nodup_iff.mpr hmembers).filter _
  · rw [hpeers, hrace]
    intro p hp
    exact h.nodeIds.mem_iff.mp (List.mem_filter.mp hp).1
  · rw [hpeers, hstarted.candidate]
    simp
  · rw [hquorum, hrace, electorate, ← h.nodeIds.length_eq, List.length_map]
    rfl

theorem startShardElection_spec {shardId : ShardId} {nowMs timeoutMs : ℕ} {e : Election}
    (hmembers : members.Nodup) (hn : n ∈ members)
    (h : Knows members shardMembers n c)
    (hstart : startShardElection c shardId nowMs timeoutMs = some (e, c')) :
    e.shardId = some shardId ∧ Started c c' e ∧ Contest members shardMembers e := by
  obtain ⟨hrace, hstarted, shard, hfind, hreplica, hpeers, hquorum⟩ :=
    startShardElection_started hstart
  have hperm := h.shardIds shardId shard hfind
  refine ⟨hrace, hstarted, ?_, ?_, ?_, ?_, ?_, ?_⟩
  · rw [hstarted.candidate, h.localId]
    exact hn
  · rw [hstarted.candidate, hrace]
    exact hperm.mem_iff.mp (mem_shardNodeIds.mpr (Or.inr hreplica))
  · rw [hpeers]
    exact (h.nodeIds.nodup_iff.mpr hmembers).filter _
  · rw [hpeers, hrace]
    intro p hp
    have hp := (List.mem_filter.mp hp).2
    simp only [decide_eq_true_eq] at hp
    exact hperm.mem_iff.mp hp.2
  · rw [hpeers, hstarted.candidate]
    simp
  · rw [hquorum, hrace, electorate, ← hperm.length_eq]
    rfl

/-- A promotion needs enough votes and a newer term, and keeps tables and votes. -/
theorem promoteElected_spec {e : Election} {votes : ℕ} (h : Knows members shardMembers n c)
    (hnodup : ∀ id, (shardMembers id).Nodup) (hn : e.candidate = n)
    (he : Contest members shardMembers e) (hc : promoteElected c e votes = some c') :
    e.quorum ≤ votes ∧ Knows members shardMembers n c' ∧ lastVote c' = lastVote c := by
  unfold promoteElected at hc
  by_cases hvotes : votes < e.quorum
  · rw [if_pos hvotes] at hc
    cases hc
  · rw [if_neg hvotes] at hc
    refine ⟨not_lt.mp hvotes, ?_⟩
    rcases hrace : e.shardId with _ | id
    · simp only [hrace] at hc
      split_ifs at hc with hbail
      cases hc
      refine ⟨h.congr rfl ?_ rfl, ?_⟩
      · simp [applyWholeClusterPromotion, Function.comp_def]
      · exact lastVote_congr rfl rfl rfl
    · simp only [hrace] at hc
      rcases hfind : findShard c id with _ | shard
      · simp [hfind] at hc
      · simp only [hfind] at hc
        split_ifs at hc with hok
        cases hc
        have hk : c.localNodeId ∈ shardMembers id := by
          have := he.candidate
          rw [hrace] at this
          rwa [h.localId, ← hn]
        exact ⟨h.promoteShard (hnodup id) hk e.term, lastVote_congr rfl rfl rfl⟩

end Elections

section Invariant

/-- The ballots cast so far. -/
def ballots (s : System) : Set (Ballot NodeId (Option ShardId)) :=
  {b | ∃ g ∈ s.grants, g.ballot = b}

/-- The latest votes the servers remember. -/
def voteRecord (s : System) (n : NodeId) (race : Option ShardId) : ℕ × NodeId :=
  lastVote (s.servers n).cluster race

/-- What a message on the network rests on. -/
def Backed (shardMembers : ShardId → List NodeId) (s : System) : Message → Prop
  | .granted voter candidate term race =>
    (⟨voter, race, term, candidate⟩ : Ballot NodeId (Option ShardId)) ∈ ballots s
  | .leaderAnnounce _ nodeId _ (some id) => nodeId ∈ shardMembers id
  | _ => True

structure Inv (members : List NodeId) (shardMembers : ShardId → List NodeId) (s : System) :
    Prop where
  same : s.members = members
  nodup : members.Nodup
  shardNodup : ∀ id, (shardMembers id).Nodup
  knows : ∀ n ∈ members, Knows members shardMembers n (s.servers n).cluster
  recorded : Recorded (voteRecord s) (ballots s)
  backed : ∀ m ∈ s.network, Backed shardMembers s m
  contest : ∀ e ∈ s.elections, Contest members shardMembers e
  selfVote : ∀ e ∈ s.elections,
    (⟨e.candidate, e.shardId, e.term, e.candidate⟩ : Ballot NodeId (Option ShardId)) ∈ ballots s
  won : ∀ w ∈ s.wins, Elected (electorate members shardMembers w.shardId).toFinset (ballots s)
    w.shardId w.term w.node

variable {s s' : System}

/-- A server changes something that elections do not look at. -/
theorem Inv.setServer (h : Inv members shardMembers s) {n : NodeId} {st : AppState}
    (hk : Knows members shardMembers n st.cluster)
    (hv : lastVote st.cluster = lastVote (s.servers n).cluster) :
    Inv members shardMembers (s.setServer n st) := by
  have hrecord : voteRecord (s.setServer n st) = voteRecord s := by
    funext m race
    by_cases hm : m = n
    · subst hm
      simp [voteRecord, System.setServer, hv]
    · simp [voteRecord, System.setServer, hm]
  refine { h with knows := ?_, recorded := ?_ }
  · intro m hm
    by_cases hmn : m = n
    · subst hmn
      simpa [System.setServer] using hk
    · simpa [System.setServer, hmn] using h.knows m hm
  · rw [hrecord]
    exact h.recorded

theorem Inv.send (h : Inv members shardMembers s) {msgs : List Message}
    (hmsgs : ∀ m ∈ msgs, Backed shardMembers s m) : Inv members shardMembers (s.send msgs) := by
  refine { h with backed := ?_ }
  intro m hm
  rcases List.mem_append.mp hm with hm | hm
  · exact hmsgs m hm
  · exact h.backed m hm

theorem Inv.addElection (h : Inv members shardMembers s) {e : Election}
    (hcontest : Contest members shardMembers e)
    (hself : (⟨e.candidate, e.shardId, e.term, e.candidate⟩ : Ballot NodeId (Option ShardId)) ∈
      ballots s) : Inv members shardMembers (s.addElection e) := by
  refine { h with contest := ?_, selfVote := ?_ }
  · intro e' he'
    rcases List.mem_cons.mp he' with rfl | he'
    · exact hcontest
    · exact h.contest e' he'
  · intro e' he'
    rcases List.mem_cons.mp he' with rfl | he'
    · exact hself
    · exact h.selfVote e' he'

theorem Inv.addWin (h : Inv members shardMembers s) {w : Win}
    (hw : Elected (electorate members shardMembers w.shardId).toFinset (ballots s) w.shardId
      w.term w.node) : Inv members shardMembers (s.addWin w) := by
  refine { h with won := ?_ }
  intro w' hw'
  rcases List.mem_cons.mp hw' with rfl | hw'
  · exact hw
  · exact h.won w' hw'

theorem Inv.addWrite (h : Inv members shardMembers s) (w : Write) :
    Inv members shardMembers (s.addWrite w) := { h with }

theorem ballots_castVote (s : System) (voter candidate : NodeId) (race : Option ShardId)
    (term : ℕ) (last : Position) :
    ballots (s.castVote voter candidate race term last) =
      insert ⟨voter, race, term, candidate⟩ (ballots s) := by
  ext b
  simp [ballots, System.castVote, eq_comm]

/-- The server of a voter remembers the ballot it casts. -/
theorem voteRecord_castVote_self (s : System) (voter candidate : NodeId) (race : Option ShardId)
    (term : ℕ) (last : Position) :
    voteRecord ((s.setCluster voter
      (recordVote (s.servers voter).cluster race term candidate)).castVote voter candidate race term
        last) voter race = (term, candidate) := by
  simp [voteRecord, System.castVote, System.setCluster, System.setServer, lastVote_recordVote]

theorem voteRecord_castVote_other (s : System) {voter candidate : NodeId} {race : Option ShardId}
    {term : ℕ} {last : Position} {v : NodeId} {r : Option ShardId} (hne : (v, r) ≠ (voter, race)) :
    voteRecord ((s.setCluster voter
      (recordVote (s.servers voter).cluster race term candidate)).castVote voter candidate race term
        last) v r = voteRecord s v r := by
  by_cases hv : v = voter
  · subst hv
    have hr : r ≠ race := fun hr => hne (by rw [hr])
    simp [voteRecord, System.castVote, System.setCluster, System.setServer, lastVote_recordVote, hr]
  · simp [voteRecord, System.castVote, System.setCluster, System.setServer, hv]

theorem Backed.mono {m : Message} (h : Backed shardMembers s m) (hsub : ballots s ⊆ ballots s') :
    Backed shardMembers s' m := by
  cases m with
  | granted voter candidate term race => exact hsub h
  | leaderAnnounce dst nodeId epoch race =>
    cases race with
    | none => trivial
    | some id => exact h
  | requestVote => trivial
  | replicate => trivial
  | heartbeat => trivial

/-- A server casts a vote, in a later term than its last one or repeating it. -/
theorem Inv.castVote (h : Inv members shardMembers s) {voter candidate : NodeId}
    {race : Option ShardId} {term : ℕ} (last : Position)
    (hvoter : voter ∈ members)
    (hok : (voteRecord s voter race).1 < term ∨ voteRecord s voter race = (term, candidate)) :
    Inv members shardMembers
      ((s.setCluster voter (recordVote (s.servers voter).cluster race term candidate)).castVote
        voter candidate race term last) := by
  have hsub : ballots s ⊆ insert ⟨voter, race, term, candidate⟩ (ballots s) :=
    Set.subset_insert _ _
  have hballots := ballots_castVote (s.setCluster voter
    (recordVote (s.servers voter).cluster race term candidate)) voter candidate race term last
  change _ = insert _ (ballots s) at hballots
  refine { same := h.same, nodup := h.nodup, shardNodup := h.shardNodup, contest := h.contest,
           knows := ?_, recorded := ?_, backed := ?_, selfVote := ?_, won := ?_ }
  · intro m hm
    by_cases hmv : m = voter
    · subst hmv
      have hk := h.knows m hm
      exact hk.congr (by simp [System.castVote, System.setCluster, System.setServer])
        (by simp [System.castVote, System.setCluster, System.setServer])
        (by simp [System.castVote, System.setCluster, System.setServer])
    · simpa [System.castVote, System.setCluster, System.setServer, hmv] using h.knows m hm
  · rw [hballots]
    exact h.recorded.cast hok (voteRecord_castVote_self ..) (fun _ _ hne =>
      voteRecord_castVote_other s hne)
  · intro m hm
    exact (h.backed m hm).mono (hballots ▸ hsub)
  · intro e he
    exact hballots ▸ hsub (h.selfVote e he)
  · intro w hw
    exact (h.won w hw).mono (hballots ▸ hsub)

end Invariant

section Steps
variable {s s' : System}

theorem Inv.beginElection (h : Inv members shardMembers s) {n : NodeId} (hn : n ∈ members)
    {e : Election} {c : ClusterStateModel}
    (hstart : Started (s.servers n).cluster c e) (hcontest : Contest members shardMembers e)
    (hs : s.beginElection n (some (e, c)) = some s') : Inv members shardMembers s' := by
  have hlocal := (h.knows n hn).localId
  have hcand : e.candidate = n := hstart.candidate.trans hlocal
  have hok : (voteRecord s n e.shardId).1 < e.term ∨
      voteRecord s n e.shardId = (e.term, e.candidate) := Or.inl hstart.term
  have hvoted := h.castVote e.last hn hok
  have hc : c = recordVote (s.servers n).cluster e.shardId e.term e.candidate := by
    rw [hstart.voted, hlocal, hcand]
  rw [← hc] at hvoted
  cases hs
  have hself : (⟨e.candidate, e.shardId, e.term, e.candidate⟩ : Ballot NodeId (Option ShardId)) ∈
      ballots ((s.setCluster n c).castVote n e.candidate e.shardId e.term e.last) := by
    rw [ballots_castVote, hcand]
    exact Set.mem_insert _ _
  refine (hvoted.addElection hcontest hself).send ?_
  intro m hm
  obtain ⟨p, -, rfl⟩ := List.mem_map.mp hm
  trivial

/-- The candidate and the peers it heard a grant from are a majority that voted for it. -/
theorem Inv.elected (h : Inv members shardMembers s) {e : Election} (he : e ∈ s.elections)
    {heard : List NodeId} (hvotes : e.quorum ≤ s.countVotes e heard) :
    Elected (electorate members shardMembers e.shardId).toFinset (ballots s) e.shardId e.term
      e.candidate := by
  have hcontest := h.contest e he
  have hnodup : (electorate members shardMembers e.shardId).Nodup := by
    cases e.shardId with
    | none => exact h.nodup
    | some id => exact h.shardNodup id
  refine ⟨_, isMajority_of_count hnodup (hcontest.nodup.filter _) hcontest.candidate
    (fun hmem => hcontest.notPeer (List.mem_filter.mp hmem).1)
    (fun p hp => hcontest.peers p (List.mem_filter.mp hp).1)
    (hcontest.quorum ▸ hvotes), ?_⟩
  intro v hv
  rcases List.mem_cons.mp (List.mem_toFinset.mp hv) with rfl | hv
  · exact h.selfVote e he
  · have hgranted := (List.mem_filter.mp hv).2
    simp only [decide_eq_true_eq] at hgranted
    exact h.backed _ hgranted.2

theorem Inv.finish (h : Inv members shardMembers s) {e : Election} {heard : List NodeId}
    (hs : s.finish e heard = some s') : Inv members shardMembers s' := by
  unfold System.finish at hs
  split_ifs at hs with he
  dsimp only at hs
  split at hs
  · cases hs
  · rename_i c hpromote
    cases hs
    have hcontest := h.contest e he
    obtain ⟨hvotes, hk, hv⟩ := promoteElected_spec (h.knows _ hcontest.member) h.shardNodup rfl
      hcontest hpromote
    have hset : Inv members shardMembers (s.setCluster e.candidate c) := h.setServer hk hv
    refine (hset.addWin (h.elected he hvotes)).send ?_
    intro m hm
    obtain ⟨p, -, rfl⟩ := List.mem_map.mp hm
    have hcandidate := hcontest.candidate
    revert hcandidate
    cases e.shardId with
    | none => exact fun _ => trivial
    | some id => exact fun hmem => hmem

theorem Inv.receive (h : Inv members shardMembers s) {nowMs : ℕ} {m : Message}
    (hm : m ∈ s.network) (hdst : System.recipient m ∈ members)
    (hs : s.receive nowMs m = some s') : Inv members shardMembers s' := by
  cases m with
  | requestVote dst candidate term appliedOps last race =>
    simp only [System.receive] at hs
    split at hs
    · rename_i c hvote
      cases hs
      rcases clusterRequestVote_ok hvote with ⟨-, -, hok, rfl⟩ | ⟨hfalse, -⟩
      · refine (h.castVote last hdst hok).send ?_
        intro m hm
        obtain rfl := List.mem_singleton.mp hm
        change _ ∈ ballots _
        rw [ballots_castVote]
        exact Set.mem_insert _ _
      · cases hfalse
    · rename_i c hvote
      cases hs
      rcases clusterRequestVote_ok hvote with ⟨htrue, -⟩ | ⟨-, rfl⟩
      · cases htrue
      · exact h.setServer (h.knows dst hdst) rfl
    · cases hs
      exact h
  | granted voter candidate term race => cases hs
  | leaderAnnounce dst nodeId epoch race =>
    simp only [System.receive] at hs
    split at hs
    · rename_i c hannounce
      cases hs
      obtain ⟨hk, hv⟩ := (h.knows dst hdst).announce h.shardNodup (by
        rintro id rfl
        exact h.backed _ hm) hannounce
      exact h.setServer hk hv
    · cases hs
      exact h
  | replicate dst op =>
    cases hs
    have hk := h.knows dst hdst
    by_cases happly : decideReplicationApply (s.servers dst).cluster.replication.lastApplied
        op.position = .apply
    · rw [handleReplicated_of_apply happly]
      exact h.setServer (hk.congr rfl rfl rfl) (lastVote_congr rfl rfl rfl)
    · rw [handleReplicated_of_skip happly]
      exact h.setServer hk rfl
  | heartbeat dst hb =>
    simp only [System.receive] at hs
    split at hs
    · rename_i c hheard
      cases hs
      obtain rfl := clusterNodeHeartbeat_ok hheard
      exact h.setServer ((h.knows dst hdst).heartbeat hb nowMs) (lastVote_congr rfl rfl rfl)
    · cases hs
      exact h

theorem Inv.clientWrite (h : Inv members shardMembers s) {n : NodeId} (hn : n ∈ members)
    {method params : String} {autoFailover : Bool} {nowMs timeoutMs : ℕ}
    (hs : s.clientWrite n method params autoFailover nowMs timeoutMs = some s') :
    Inv members shardMembers s' := by
  unfold System.clientWrite at hs
  split at hs
  · cases hs
  · split at hs
    · cases hs
    · rename_i st op hrecord
      obtain ⟨-, -, rfl⟩ := recordReplicationOp_some hrecord
      cases hs
      have hk : Knows members shardMembers n (appendOp (s.servers n) op).cluster :=
        (h.knows n hn).congr rfl rfl rfl
      have hv : lastVote (appendOp (s.servers n) op).cluster = lastVote (s.servers n).cluster :=
        lastVote_congr rfl rfl rfl
      refine ((h.setServer hk hv).addWrite ⟨n, op⟩).send ?_
      intro m hm
      obtain ⟨t, -, rfl⟩ := List.mem_map.mp hm
      trivial

theorem Inv.reportCommit (h : Inv members shardMembers s) (n : NodeId) :
    Inv members shardMembers (s.reportCommit n) := by
  unfold System.reportCommit
  dsimp only
  split_ifs
  · exact { h with }
  · exact h

theorem Inv.beat (h : Inv members shardMembers s) {n : NodeId} (hn : n ∈ members) :
    Inv members shardMembers (s.beat n) := by
  have hk := h.knows n hn
  have hround : ∀ c, Knows members shardMembers n c →
      Knows members shardMembers n (runClusterHeartbeatOnce c).1 ∧
        lastVote (runClusterHeartbeatOnce c).1 = lastVote c := by
    intro c hc
    dsimp only [runClusterHeartbeatOnce]
    split_ifs
    · exact ⟨hc.congr rfl rfl rfl, lastVote_congr rfl rfl rfl⟩
    · exact ⟨hc, rfl⟩
  obtain ⟨hk', hv⟩ := hround _ hk
  refine ((h.setServer hk' hv).reportCommit n).send ?_
  intro m hm
  split_ifs at hm
  · obtain ⟨p, -, rfl⟩ := List.mem_map.mp hm
    trivial
  · simp at hm

theorem Inv.catchUp (h : Inv members shardMembers s) {n : NodeId}
    (hs : s.catchUp n = some s') : Inv members shardMembers s' := by
  unfold System.catchUp at hs
  dsimp only at hs
  split_ifs at hs
  cases hs
  refine h.send ?_
  intro m hm
  obtain ⟨op, -, rfl⟩ := List.mem_map.mp hm
  trivial

theorem Inv.act (h : Inv members shardMembers s) {a : Action} (hs : s.act a = some s') :
    Inv members shardMembers s' := by
  cases a with
  | startElection n nowMs timeoutMs =>
    simp only [System.act, h.same] at hs
    split_ifs at hs with hn
    rcases hstart : startClusterElection (s.servers n).cluster nowMs timeoutMs with _ | ⟨e, c⟩
    · simp [hstart, System.beginElection] at hs
    · obtain ⟨-, -, hstarted, hcontest⟩ :=
        startClusterElection_spec h.nodup hn (h.knows n hn) hstart
      rw [hstart] at hs
      exact h.beginElection hn hstarted hcontest hs
  | startShardElection n shardId nowMs timeoutMs =>
    simp only [System.act, h.same] at hs
    split_ifs at hs with hn
    rcases hstart : startShardElection (s.servers n).cluster shardId nowMs timeoutMs
      with _ | ⟨e, c⟩
    · simp [hstart, System.beginElection] at hs
    · obtain ⟨-, hstarted, hcontest⟩ := startShardElection_spec h.nodup hn (h.knows n hn) hstart
      rw [hstart] at hs
      exact h.beginElection hn hstarted hcontest hs
  | finishElection e heard => exact h.finish hs
  | deliver m nowMs =>
    simp only [System.act, h.same] at hs
    split_ifs at hs with hm
    exact h.receive hm.1 hm.2 hs
  | write n method params autoFailover nowMs timeoutMs =>
    simp only [System.act, h.same] at hs
    split_ifs at hs with hn
    exact h.clientWrite hn hs
  | heartbeat n =>
    simp only [System.act, h.same] at hs
    split_ifs at hs with hn
    cases hs
    exact h.beat hn
  | catchUp n =>
    simp only [System.act, h.same] at hs
    split_ifs at hs with hn
    exact h.catchUp hs

theorem Inv.run {as : List Action} (h : Inv members shardMembers s) (hs : s.run as = some s') :
    Inv members shardMembers s' := by
  induction as generalizing s with
  | nil =>
    cases hs
    exact h
  | cons a as ih =>
    unfold System.run at hs
    split at hs
    · cases hs
    · rename_i t hact
      exact ih (h.act hact) hs

end Steps

/-- A cluster as it is formed: every member has the membership in its tables, and nothing has
been sent, voted or won yet. -/
structure Formed (members : List NodeId) (shardMembers : ShardId → List NodeId) (s : System) :
    Prop where
  same : s.members = members
  nodup : members.Nodup
  shardNodup : ∀ id, (shardMembers id).Nodup
  knows : ∀ n ∈ members, Knows members shardMembers n (s.servers n).cluster
  network : s.network = []
  elections : s.elections = []
  grants : s.grants = []
  wins : s.wins = []

theorem Formed.inv {s : System} (h : Formed members shardMembers s) :
    Inv members shardMembers s where
  same := h.same
  nodup := h.nodup
  shardNodup := h.shardNodup
  knows := h.knows
  recorded := by
    have hnone : ballots s = ∅ := by
      ext b
      simp [ballots, h.grants]
    rw [hnone]
    exact Recorded.empty _
  backed := by simp [h.network]
  contest := by simp [h.elections]
  selfVote := by simp [h.elections]
  won := by simp [h.wins]

/-- In every run, at most one node wins a term of a race, whichever messages are lost, repeated
or reordered, because no node votes for two candidates in one term. -/
theorem election_safety {s₀ s : System} {as : List Action}
    (hformed : Formed members shardMembers s₀) (hrun : s₀.run as = some s) :
    (∀ w ∈ s.wins, ∀ w' ∈ s.wins, w.shardId = w'.shardId → w.term = w'.term →
      w.node = w'.node) ∧
    ∀ g ∈ s.grants, ∀ g' ∈ s.grants, g.ballot.voter = g'.ballot.voter →
      g.ballot.race = g'.ballot.race → g.ballot.term = g'.ballot.term →
      g.ballot.candidate = g'.ballot.candidate := by
  have hinv := hformed.inv.run hrun
  constructor
  · intro w hw w' hw' hrace hterm
    have hwon := hinv.won w hw
    rw [hrace, hterm] at hwon
    exact hwon.unique hinv.recorded (hinv.won w' hw')
  · intro g hg g' hg'
    exact hinv.recorded.single _ ⟨g, hg, rfl⟩ _ ⟨g', hg', rfl⟩

theorem sampleSystem_formed : Formed ["a", "b", "c"] sampleShardMembers sampleSystem where
  same := rfl
  nodup := by decide
  shardNodup := by
    intro id
    unfold sampleShardMembers
    split_ifs <;> decide
  knows := by
    intro n _
    refine ⟨rfl, List.Perm.refl _, ?_⟩
    intro id shard hfind
    by_cases hid : "orders" = id
    · subst hid
      obtain rfl := Option.some.inj hfind
      decide
    · simp [findShard, sampleSystem, sampleServer, hid] at hfind
  network := rfl
  elections := rfl
  grants := rfl
  wins := rfl

/-- `c` wins the cluster with the vote of `a`, and `b` the shard with the vote of `c`. -/
def sampleElections : List Action := [
  .startElection "c" 9000 5000,
  .deliver (.requestVote "a" "c" 1 0 0 none) 9000,
  .startShardElection "b" "orders" 9000 5000,
  .deliver (.requestVote "c" "b" 1 0 0 (some "orders")) 9000,
  .finishElection ⟨"c", none, 1, 2, ["a", "b"], 0, 0, 9000, 5000⟩ ["a"],
  .finishElection ⟨"b", some "orders", 1, 2, ["a", "c"], 0, 0, 9000, 5000⟩ ["c"]]

theorem sampleElections_isSome : (sampleSystem.run sampleElections).isSome := by decide

theorem election_safety_sample : ∃ s, sampleSystem.run sampleElections = some s ∧
    s.wins.map (fun w => (w.node, w.shardId, w.term)) = [("b", some "orders", 1), ("c", none, 1)] ∧
    ∀ w ∈ s.wins, ∀ w' ∈ s.wins, w.shardId = w'.shardId → w.term = w'.term →
      w.node = w'.node := by
  have hrun := (Option.some_get sampleElections_isSome).symm
  exact ⟨_, hrun, by decide, (election_safety sampleSystem_formed hrun).1⟩

end SkeinDB.Cluster
