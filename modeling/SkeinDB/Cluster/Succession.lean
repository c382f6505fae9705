import SkeinDB.Cluster.Fencing
import SkeinDB.Cluster.Membership
import SkeinDB.Consensus.Mandates

/-!
# Succession

Nodes elect and announce primaries, and operators promote, retire and remove nodes on the node
they talk to. An election gives an epoch to its winner by the votes of a majority. A promotion
takes the next epoch without asking anybody, and the departure of a primary puts another one in
its place under the same epoch. The leadership epoch stands for one primary as long as these
requests keep clear of the epochs that are held or were won.
-/
namespace SkeinDB.Cluster
open Consensus Format

/-- An action of the cluster, or a request that `n` serves to an operator. Promotions are not
forced. -/
inductive Operation where
  | act (a : Action)
  | promote (n nodeId : NodeId) (shardId : Option ShardId) (nowMs timeoutMs : ℕ)
  | leave (n nodeId : NodeId) (nowMs : ℕ)
  | remove (n nodeId : NodeId) (force : Option Bool) (localRpcUrl : String) (nowMs : ℕ)

namespace System

/-- A failed request leaves the node as it is. -/
def serve (s : System) (n : NodeId) : Except RpcError ClusterStateModel → Option System
  | .ok c => if n ∈ s.members then some (s.setCluster n c) else none
  | .error _ => if n ∈ s.members then some s else none

def operate (s : System) : Operation → Option System
  | .act a => s.act a
  | .promote n nodeId shardId nowMs timeoutMs => s.serve n
    ((clusterReplicaPromote (s.servers n).cluster nodeId shardId none nowMs timeoutMs).map (·.2))
  | .leave n nodeId nowMs =>
    s.serve n ((clusterNodeLeave (s.servers n).cluster nodeId nowMs).map (·.2))
  | .remove n nodeId force localRpcUrl nowMs => s.serve n
    ((clusterNodeRemove (s.servers n).cluster nodeId force localRpcUrl nowMs).map (·.2))

def operateAll (s : System) (ops : List Operation) : Option System := ops.foldlM operate s

end System

/-- Members that hold the same epoch take the same node for primary. -/
def PrimaryAgreed (s : System) : Prop :=
  ∀ n ∈ s.members, ∀ m ∈ s.members,
    (s.servers n).cluster.leadershipEpoch = (s.servers m).cluster.leadershipEpoch →
      (s.servers n).cluster.primaryNodeId = (s.servers m).cluster.primaryNodeId

/-- Wherever the primary of a node changes, its epoch increases. -/
def EpochIncreases (s s' : System) : Prop :=
  ∀ n, (s'.servers n).cluster.primaryNodeId ≠ (s.servers n).cluster.primaryNodeId →
    (s.servers n).cluster.leadershipEpoch < (s'.servers n).cluster.leadershipEpoch

/-- In every state of a run an epoch has one primary, and every operation that changes the primary
of a node increases its epoch. -/
structure EpochIdentifiesPrimary (s₀ : System) (ops : List Operation) : Prop where
  agreed : ∀ before after, ops = before ++ after → ∀ s, s₀.operateAll before = some s →
    PrimaryAgreed s
  increases : ∀ before op after, ops = before ++ op :: after → ∀ s s',
    s₀.operateAll before = some s → s.operate op = some s' → EpochIncreases s s'

section Condition

/-- No member holds the epoch for another primary. -/
def Unheld (s : System) (epoch : ℕ) (nodeId : NodeId) : Prop :=
  ∀ n ∈ s.members, (s.servers n).cluster.leadershipEpoch = epoch →
    (s.servers n).cluster.primaryNodeId = nodeId

instance (s : System) (epoch : ℕ) (nodeId : NodeId) : Decidable (Unheld s epoch nodeId) :=
  inferInstanceAs (Decidable (∀ n ∈ s.members, _ → _))

/-- No other node has won the cluster in this epoch. -/
def Unwon (s : System) (epoch : ℕ) (nodeId : NodeId) : Prop :=
  ∀ w ∈ s.wins, w.shardId = none → w.term = epoch → w.node = nodeId

instance (s : System) (epoch : ℕ) (nodeId : NodeId) : Decidable (Unwon s epoch nodeId) :=
  inferInstanceAs (Decidable (∀ w ∈ s.wins, _ → _ → _))

/-- An election for the cluster ends with the votes of a majority of the members, in a term that no
member holds for another primary. -/
def MandatedAction (s : System) : Action → Prop
  | .finishElection e heard => e.shardId = none →
    clusterQuorumSize s.members.length ≤ s.countVotes e heard ∧ Unheld s e.term e.candidate
  | _ => True

instance (s : System) : (a : Action) → Decidable (MandatedAction s a)
  | .finishElection .. => inferInstanceAs (Decidable (_ → _ ∧ _))
  | .startElection .. | .startShardElection .. | .deliver .. | .write .. | .heartbeat _
  | .catchUp _ => isTrue trivial

/-- A promotion on a node with quorum takes a newer epoch, which no other primary holds or has
won. -/
def MandatedPromotion (s : System) (c : ClusterStateModel) (nodeId : NodeId)
    (nowMs timeoutMs : ℕ) : Prop :=
  let epoch := saturatingAdd c.leadershipEpoch 1
  nodeId ∈ c.nodes.map (·.nodeId) →
    clusterHasQuorum c.nodes c.localNodeId nowMs timeoutMs = true →
      (nodeId ≠ c.primaryNodeId → c.leadershipEpoch < epoch) ∧ Unheld s epoch nodeId ∧
        Unwon s epoch nodeId

instance (s : System) (c : ClusterStateModel) (nodeId : NodeId) (nowMs timeoutMs : ℕ) :
    Decidable (MandatedPromotion s c nodeId nowMs timeoutMs) :=
  inferInstanceAs (Decidable (_ → _ → _ ∧ _ ∧ _))

/-- A node that leaves is not the primary, or nobody else is online. -/
def QuietLeave (c : ClusterStateModel) (nodeId : NodeId) : Prop :=
  c.primaryNodeId = nodeId → ∀ row ∈ c.nodes, row.nodeId ≠ nodeId → row.status = .offline

instance (c : ClusterStateModel) (nodeId : NodeId) : Decidable (QuietLeave c nodeId) :=
  inferInstanceAs (Decidable (_ → ∀ row ∈ c.nodes, _ → _))

/-- A node that is removed is not the primary, or it is the local node and alone in its table. -/
def QuietRemoval (c : ClusterStateModel) (nodeId : NodeId) : Prop :=
  c.primaryNodeId = nodeId → nodeId = c.localNodeId ∧ ∀ row ∈ c.nodes, row.nodeId = nodeId

instance (c : ClusterStateModel) (nodeId : NodeId) : Decidable (QuietRemoval c nodeId) :=
  inferInstanceAs (Decidable (_ → _ ∧ ∀ row ∈ c.nodes, _))

/-- An operation keeps clear of the epochs of other primaries, and a departure that goes through
leaves the primary as it is. -/
def Mandated (s : System) : Operation → Prop
  | .act a => MandatedAction s a
  | .promote _ _ (some _) _ _ => True
  | .promote n nodeId none nowMs timeoutMs =>
    MandatedPromotion s (s.servers n).cluster nodeId nowMs timeoutMs
  | .leave n nodeId _ =>
    nodeId ∈ (s.servers n).cluster.nodes.map (·.nodeId) → QuietLeave (s.servers n).cluster nodeId
  | .remove n nodeId force _ _ =>
    checkRemoval (s.servers n).cluster nodeId force = .ok () →
      QuietRemoval (s.servers n).cluster nodeId

instance (s : System) : (op : Operation) → Decidable (Mandated s op)
  | .act a => inferInstanceAs (Decidable (MandatedAction s a))
  | .promote _ _ (some _) _ _ => isTrue trivial
  | .promote _ _ none _ _ => inferInstanceAs (Decidable (MandatedPromotion ..))
  | .leave .. => inferInstanceAs (Decidable (_ → QuietLeave ..))
  | .remove .. => inferInstanceAs (Decidable (_ → QuietRemoval ..))

def MandatedRun (s : System) : List Operation → Prop
  | [] => True
  | op :: ops => Mandated s op ∧ ∀ s' ∈ s.operate op, MandatedRun s' ops

instance decidableMandatedRun (s : System) : (ops : List Operation) → Decidable (MandatedRun s ops)
  | [] => isTrue trivial
  | op :: ops =>
    match h : s.operate op with
    | none => decidable_of_iff (Mandated s op) (by simp [MandatedRun, h])
    | some s' =>
      have := decidableMandatedRun s' ops
      decidable_of_iff (Mandated s op ∧ MandatedRun s' ops) (by simp [MandatedRun, h])

end Condition

section Invariant
variable {members : List NodeId} {s s' : System} {n : NodeId} {c c' : ClusterStateModel}

/-- The leadership that the nodes hold, have voted on and have won. -/
def leadership (s : System) : Mandates.State NodeId (Option ShardId) where
  held n := ((s.servers n).cluster.leadershipEpoch, (s.servers n).cluster.primaryNodeId)
  record := voteRecord s
  box := ballots s
  wins := {won | ∃ w ∈ s.wins, w.shardId = none ∧ (w.term, w.node) = won}

/-- The table of a node lists members, each of them once. -/
structure Lists (members : List NodeId) (n : NodeId) (c : ClusterStateModel) : Prop where
  localId : c.localNodeId = n
  nodup : (c.nodes.map (·.nodeId)).Nodup
  member : ∀ id ∈ c.nodes.map (·.nodeId), id ∈ members

/-- An election for the cluster asks other members for their votes, each of them once. -/
structure Canvass (members : List NodeId) (e : Election) : Prop where
  nodup : e.peers.Nodup
  member : ∀ p ∈ e.peers, p ∈ members
  notPeer : e.candidate ∉ e.peers

/-- A granted vote was cast, and an announced leadership of the cluster was won. -/
def Warranted (s : System) : Message → Prop
  | .granted voter candidate term race =>
    (⟨voter, race, term, candidate⟩ : Ballot NodeId (Option ShardId)) ∈ ballots s
  | .leaderAnnounce _ nodeId epoch none => (epoch, nodeId) ∈ (leadership s).wins
  | _ => True

structure Succession (members : List NodeId) (s : System) : Prop where
  same : s.members = members
  nodup : members.Nodup
  lists : ∀ n ∈ members, Lists members n (s.servers n).cluster
  warranted : ∀ m ∈ s.network, Warranted s m
  candidate : ∀ e ∈ s.elections, e.candidate ∈ members
  canvass : ∀ e ∈ s.elections, e.shardId = none → Canvass members e
  selfVote : ∀ e ∈ s.elections,
    (⟨e.candidate, e.shardId, e.term, e.candidate⟩ : Ballot NodeId (Option ShardId)) ∈ ballots s
  mandates : Mandates.Inv members.toFinset none (leadership s)

theorem Succession.agreed (h : Succession members s) : PrimaryAgreed s := by
  intro n hn m hm hepoch
  rw [h.same] at hn hm
  exact h.mandates.agree n (List.mem_toFinset.mpr hn) m (List.mem_toFinset.mpr hm) hepoch

theorem Succession.uncontested (h : Succession members s) {epoch : ℕ} {nodeId : NodeId}
    (hheld : Unheld s epoch nodeId) :
    Mandates.Uncontested members.toFinset (leadership s) epoch nodeId := by
  intro n hn
  rw [List.mem_toFinset, ← h.same] at hn
  exact hheld n hn

theorem Unwon.unclaimed {epoch : ℕ} {nodeId : NodeId} (h : Unwon s epoch nodeId) :
    Mandates.Unclaimed (leadership s) epoch nodeId := by
  rintro _ ⟨w, hw, hrace, rfl⟩ hepoch
  exact h w hw hrace hepoch

theorem Lists.congr (h : Lists members n c) (hlocal : c'.localNodeId = c.localNodeId)
    (hnodes : c'.nodes.map (·.nodeId) = c.nodes.map (·.nodeId)) : Lists members n c' where
  localId := hlocal.trans h.localId
  nodup := hnodes ▸ h.nodup
  member := hnodes ▸ h.member

theorem Lists.promote (h : Lists members n c) (nodeId : NodeId) (epoch nowMs : ℕ) :
    Lists members n (applyWholeClusterPromotion c nodeId epoch nowMs) := by
  refine h.congr rfl ?_
  simp [applyWholeClusterPromotion, Function.comp_def]

/-- A server takes up a leadership, or keeps the one it has. -/
theorem Succession.setServer (h : Succession members s) {st : AppState}
    (hlists : Lists members n st.cluster)
    (hv : lastVote st.cluster = lastVote (s.servers n).cluster)
    (hm : Mandates.Inv members.toFinset none { leadership s with
      held := Function.update (leadership s).held n
        (st.cluster.leadershipEpoch, st.cluster.primaryNodeId) }) :
    Succession members (s.setServer n st) := by
  have hleadership : leadership (s.setServer n st) = { leadership s with
      held := Function.update (leadership s).held n
        (st.cluster.leadershipEpoch, st.cluster.primaryNodeId) } := by
    have hheld : (leadership (s.setServer n st)).held = Function.update (leadership s).held n
        (st.cluster.leadershipEpoch, st.cluster.primaryNodeId) := by
      funext m
      by_cases hmn : m = n
      · subst hmn
        simp [leadership, System.setServer]
      · simp [leadership, System.setServer, hmn]
    have hrecord : voteRecord (s.setServer n st) = voteRecord s := by
      funext m race
      by_cases hmn : m = n
      · subst hmn
        simp [voteRecord, System.setServer, hv]
      · simp [voteRecord, System.setServer, hmn]
    rw [← hheld, leadership, hrecord]
    rfl
  refine { h with lists := ?_, mandates := hleadership ▸ hm }
  intro m hmem
  by_cases hmn : m = n
  · subst hmn
    simpa [System.setServer] using hlists
  · simpa [System.setServer, hmn] using h.lists m hmem

/-- A server changes something other than its leadership. -/
theorem Succession.keep (h : Succession members s) {st : AppState}
    (hlists : Lists members n st.cluster)
    (hv : lastVote st.cluster = lastVote (s.servers n).cluster)
    (hepoch : st.cluster.leadershipEpoch = (s.servers n).cluster.leadershipEpoch)
    (hprimary : st.cluster.primaryNodeId = (s.servers n).cluster.primaryNodeId) :
    Succession members (s.setServer n st) := by
  refine h.setServer hlists hv ?_
  rw [hepoch, hprimary]
  have hsame : Function.update (leadership s).held n ((s.servers n).cluster.leadershipEpoch,
      (s.servers n).cluster.primaryNodeId) = (leadership s).held :=
    Function.update_eq_self n (leadership s).held
  rw [hsame]
  exact h.mandates

theorem Succession.send (h : Succession members s) {msgs : List Message}
    (hmsgs : ∀ m ∈ msgs, Warranted s m) : Succession members (s.send msgs) := by
  refine { h with warranted := ?_ }
  intro m hm
  rcases List.mem_append.mp hm with hm | hm
  · exact hmsgs m hm
  · exact h.warranted m hm

theorem Succession.addElection (h : Succession members s) {e : Election}
    (hcandidate : e.candidate ∈ members) (hcanvass : e.shardId = none → Canvass members e)
    (hself : (⟨e.candidate, e.shardId, e.term, e.candidate⟩ : Ballot NodeId (Option ShardId)) ∈
      ballots s) : Succession members (s.addElection e) := by
  refine { h with candidate := ?_, canvass := ?_, selfVote := ?_ }
  · intro e' he'
    rcases List.mem_cons.mp he' with rfl | he'
    · exact hcandidate
    · exact h.candidate e' he'
  · intro e' he'
    rcases List.mem_cons.mp he' with rfl | he'
    · exact hcanvass
    · exact h.canvass e' he'
  · intro e' he'
    rcases List.mem_cons.mp he' with rfl | he'
    · exact hself
    · exact h.selfVote e' he'

theorem Warranted.mono {m : Message} (h : Warranted s m) (hballots : ballots s ⊆ ballots s')
    (hwins : (leadership s).wins ⊆ (leadership s').wins) : Warranted s' m := by
  cases m with
  | granted voter candidate term race => exact hballots h
  | leaderAnnounce dst nodeId epoch race =>
    cases race with
    | none => exact hwins h
    | some id => trivial
  | requestVote => trivial
  | replicate => trivial
  | heartbeat => trivial

theorem leadership_addWin_cluster {w : Win} (hrace : w.shardId = none) :
    leadership (s.addWin w) = { leadership s with
      wins := insert (w.term, w.node) (leadership s).wins } := by
  have hwins : (leadership (s.addWin w)).wins = insert (w.term, w.node) (leadership s).wins := by
    ext won
    simp [leadership, System.addWin, hrace, eq_comm]
  rw [← hwins]
  rfl

theorem leadership_addWin_shard {w : Win} {id : ShardId} (hrace : w.shardId = some id) :
    leadership (s.addWin w) = leadership s := by
  have hwins : (leadership (s.addWin w)).wins = (leadership s).wins := by
    ext won
    simp [leadership, System.addWin, hrace]
  calc leadership (s.addWin w)
      = { leadership s with wins := (leadership (s.addWin w)).wins } := rfl
    _ = leadership s := by rw [hwins]

theorem Succession.addWin (h : Succession members s) {w : Win}
    (hw : w.shardId = none → Unheld s w.term w.node ∧
      Elected members.toFinset (ballots s) none w.term w.node) :
    Succession members (s.addWin w) := by
  cases hrace : w.shardId with
  | some id =>
    have hsame := leadership_addWin_shard (s := s) hrace
    refine { h with warranted := ?_, mandates := hsame ▸ h.mandates }
    intro m hm
    exact (h.warranted m hm).mono (Set.Subset.refl _) (hsame ▸ Set.Subset.refl _)
  | none =>
    obtain ⟨hheld, hwon⟩ := hw hrace
    have hadd := leadership_addWin_cluster (s := s) hrace
    refine { h with warranted := ?_, mandates := ?_ }
    · intro m hm
      refine (h.warranted m hm).mono (Set.Subset.refl _) ?_
      rw [hadd]
      exact Set.subset_insert _ _
    · rw [hadd]
      exact h.mandates.win hwon (h.uncontested hheld)

/-- A server casts a vote, in a later term than its last one or repeating it. -/
theorem Succession.castVote (h : Succession members s) {voter candidate : NodeId}
    {race : Option ShardId} {term : ℕ} (last : Position) (hvoter : voter ∈ members)
    (hok : (voteRecord s voter race).1 < term ∨ voteRecord s voter race = (term, candidate)) :
    Succession members
      ((s.setCluster voter (recordVote (s.servers voter).cluster race term candidate)).castVote
        voter candidate race term last) := by
  set s' := (s.setCluster voter (recordVote (s.servers voter).cluster race term candidate)).castVote
    voter candidate race term last with hs'
  have hballots : ballots s' = insert ⟨voter, race, term, candidate⟩ (ballots s) :=
    ballots_castVote (s.setCluster voter (recordVote (s.servers voter).cluster race term candidate))
      voter candidate race term last
  have hsub : ballots s ⊆ ballots s' := by
    rw [hballots]
    exact Set.subset_insert _ _
  have hheld : (leadership s').held = (leadership s).held := by
    funext m
    by_cases hmv : m = voter
    · subst hmv
      simp [hs', leadership, System.castVote, System.setCluster, System.setServer]
    · simp [hs', leadership, System.castVote, System.setCluster, System.setServer, hmv]
  have hleadership : leadership s' = { leadership s with
      record := voteRecord s', box := insert ⟨voter, race, term, candidate⟩ (ballots s) } := by
    rw [leadership, hballots]
    congr 1
  refine { same := h.same, nodup := h.nodup, candidate := h.candidate, canvass := h.canvass,
           lists := ?_, warranted := ?_, selfVote := ?_, mandates := ?_ }
  · intro m hm
    by_cases hmv : m = voter
    · subst hmv
      exact (h.lists m hm).congr
        (by simp [hs', System.castVote, System.setCluster, System.setServer])
        (by simp [hs', System.castVote, System.setCluster, System.setServer])
    · simpa [hs', System.castVote, System.setCluster, System.setServer, hmv] using h.lists m hm
  · intro m hm
    exact (h.warranted m hm).mono hsub (Set.Subset.refl _)
  · intro e he
    exact hsub (h.selfVote e he)
  · rw [hleadership]
    exact h.mandates.vote (b := ⟨voter, race, term, candidate⟩) hok
      (voteRecord_castVote_self ..) (fun _ _ hne => voteRecord_castVote_other s hne)

end Invariant

section Actions
variable {members : List NodeId} {s s' : System} {n : NodeId}

theorem Succession.beginElection (h : Succession members s) (hn : n ∈ members) {e : Election}
    {c : ClusterStateModel} (hstart : Started (s.servers n).cluster c e)
    (hcanvass : e.shardId = none → Canvass members e)
    (hs : s.beginElection n (some (e, c)) = some s') : Succession members s' := by
  have hlocal := (h.lists n hn).localId
  have hcand : e.candidate = n := hstart.candidate.trans hlocal
  have hok : (voteRecord s n e.shardId).1 < e.term ∨
      voteRecord s n e.shardId = (e.term, e.candidate) := Or.inl hstart.term
  have hvoted := h.castVote e.last hn hok
  have hc : c = recordVote (s.servers n).cluster e.shardId e.term e.candidate := by
    rw [hstart.voted, hlocal, hcand]
  rw [← hc] at hvoted
  cases hs
  have hself : (⟨e.candidate, e.shardId, e.term, e.candidate⟩ : Ballot NodeId (Option ShardId)) ∈
      ballots ((s.setCluster n c).castVote n e.candidate e.shardId e.term e.last) := by
    rw [ballots_castVote, hcand]
    exact Set.mem_insert _ _
  refine (hvoted.addElection (hcand ▸ hn) hcanvass hself).send ?_
  intro m hm
  obtain ⟨p, -, rfl⟩ := List.mem_map.mp hm
  trivial

theorem Succession.beginClusterElection (h : Succession members s) (hn : n ∈ members)
    {nowMs timeoutMs : ℕ} (hs : s.beginElection n
      (startClusterElection (s.servers n).cluster nowMs timeoutMs) = some s') :
    Succession members s' := by
  cases hstart : startClusterElection (s.servers n).cluster nowMs timeoutMs with
  | none => simp [hstart, System.beginElection] at hs
  | some found =>
    obtain ⟨e, c⟩ := found
    obtain ⟨-, -, hstarted, hpeers, -⟩ := startClusterElection_started hstart
    have hlists := h.lists n hn
    rw [hstart] at hs
    refine h.beginElection hn hstarted (fun _ => ⟨?_, ?_, ?_⟩) hs
    · rw [hpeers]
      exact hlists.nodup.filter _
    · rw [hpeers]
      exact fun p hp => hlists.member p (List.mem_filter.mp hp).1
    · rw [hpeers, hstarted.candidate]
      simp

theorem Succession.beginShardElection (h : Succession members s) (hn : n ∈ members)
    {shardId : ShardId} {nowMs timeoutMs : ℕ} (hs : s.beginElection n
      (startShardElection (s.servers n).cluster shardId nowMs timeoutMs) = some s') :
    Succession members s' := by
  cases hstart : startShardElection (s.servers n).cluster shardId nowMs timeoutMs with
  | none => simp [hstart, System.beginElection] at hs
  | some found =>
    obtain ⟨e, c⟩ := found
    obtain ⟨hrace, hstarted, -⟩ := startShardElection_started hstart
    rw [hstart] at hs
    refine h.beginElection hn hstarted ?_ hs
    simp [hrace]

/-- The votes of a majority of the members, counted by a candidate for the cluster, elect it. -/
theorem Succession.elected (h : Succession members s) {e : Election} (he : e ∈ s.elections)
    (hrace : e.shardId = none) {heard : List NodeId}
    (hvotes : clusterQuorumSize members.length ≤ s.countVotes e heard) :
    Elected members.toFinset (ballots s) none e.term e.candidate := by
  have hcanvass := h.canvass e he hrace
  refine ⟨_, isMajority_of_count h.nodup (hcanvass.nodup.filter _) (h.candidate e he)
    (fun hmem => hcanvass.notPeer (List.mem_filter.mp hmem).1)
    (fun p hp => hcanvass.member p (List.mem_filter.mp hp).1) hvotes, ?_⟩
  intro v hv
  rcases List.mem_cons.mp (List.mem_toFinset.mp hv) with rfl | hv
  · exact hrace ▸ h.selfVote e he
  · have hgranted := (List.mem_filter.mp hv).2
    simp only [decide_eq_true_eq] at hgranted
    exact hrace ▸ h.warranted _ hgranted.2

theorem Succession.finish (h : Succession members s) {e : Election} {heard : List NodeId}
    (hmandated : MandatedAction s (.finishElection e heard)) (hs : s.finish e heard = some s') :
    Succession members s' := by
  unfold System.finish at hs
  split_ifs at hs with he
  dsimp only at hs
  split at hs
  · cases hs
  · rename_i c hpromote
    cases hs
    set w : Win := ⟨e.candidate, e.shardId, e.term, e.last, (s.servers e.candidate).engine⟩ with hw
    have hlists := h.lists e.candidate (h.candidate e he)
    have hwon : Succession members (s.addWin w) := by
      refine h.addWin fun hrace => ?_
      obtain ⟨hvotes, hheld⟩ := hmandated hrace
      exact ⟨hheld, h.elected he hrace (h.same ▸ hvotes)⟩
    cases hrace : e.shardId with
    | some id =>
      have hset : Succession members ((s.addWin w).setCluster e.candidate c) := by
        obtain rfl := promoteElected_shard hrace hpromote
        exact hwon.keep (hlists.congr rfl rfl) (lastVote_congr rfl rfl rfl) rfl rfl
      refine hset.send ?_
      intro m hm
      obtain ⟨p, -, rfl⟩ := List.mem_map.mp hm
      trivial
    | none =>
      have hmem : (e.term, e.candidate) ∈ (leadership (s.addWin w)).wins := by
        rw [leadership_addWin_cluster hrace]
        exact Set.mem_insert _ _
      have hset : Succession members ((s.addWin w).setCluster e.candidate c) := by
        obtain ⟨-, rfl⟩ := promoteElected_cluster hrace hpromote
        rw [hlists.localId]
        exact hwon.setServer (hlists.promote e.candidate e.term e.nowMs)
          (lastVote_congr rfl rfl rfl) (hwon.mandates.adopt e.candidate hmem)
      refine hset.send ?_
      intro m hm
      obtain ⟨p, -, rfl⟩ := List.mem_map.mp hm
      exact hmem

theorem Succession.announce (h : Succession members s) {dst nodeId : NodeId} {epoch nowMs : ℕ}
    {race : Option ShardId} (hm : Message.leaderAnnounce dst nodeId epoch race ∈ s.network)
    (hdst : dst ∈ members) {c : ClusterStateModel}
    (hc : clusterLeaderAnnounce (s.servers dst).cluster nodeId epoch race nowMs = .ok c) :
    Succession members (s.setCluster dst c) := by
  have hlists := h.lists dst hdst
  rcases clusterLeaderAnnounce_ok hc with rfl | ⟨hrace, -, rfl⟩ | ⟨id, -, rfl⟩
  · exact h.keep hlists rfl rfl rfl
  · subst hrace
    exact h.setServer (hlists.promote nodeId epoch nowMs) (lastVote_congr rfl rfl rfl)
      (h.mandates.adopt dst (h.warranted _ hm))
  · exact h.keep (hlists.congr rfl rfl) (lastVote_congr rfl rfl rfl) rfl rfl

theorem Succession.receive (h : Succession members s) {nowMs : ℕ} {m : Message}
    (hm : m ∈ s.network) (hdst : System.recipient m ∈ members)
    (hs : s.receive nowMs m = some s') : Succession members s' := by
  cases m with
  | requestVote dst candidate term appliedOps last race =>
    simp only [System.receive] at hs
    split at hs
    · rename_i c hvote
      cases hs
      rcases clusterRequestVote_ok hvote with ⟨-, -, hok, rfl⟩ | ⟨hfalse, -⟩
      · refine (h.castVote last hdst hok).send ?_
        intro m hm
        obtain rfl := List.mem_singleton.mp hm
        change _ ∈ ballots _
        rw [ballots_castVote]
        exact Set.mem_insert _ _
      · cases hfalse
    · rename_i c hvote
      cases hs
      rcases clusterRequestVote_ok hvote with ⟨htrue, -⟩ | ⟨-, rfl⟩
      · cases htrue
      · exact h.keep (h.lists dst hdst) rfl rfl rfl
    · cases hs
      exact h
  | granted voter candidate term race => cases hs
  | leaderAnnounce dst nodeId epoch race =>
    simp only [System.receive] at hs
    split at hs
    · rename_i c hannounce
      cases hs
      exact h.announce hm hdst hannounce
    · cases hs
      exact h
  | replicate dst op =>
    cases hs
    have hlists := h.lists dst hdst
    by_cases happly : decideReplicationApply (s.servers dst).cluster.replication.lastApplied
        op.position = .apply
    · rw [handleReplicated_of_apply happly]
      exact h.keep (hlists.congr rfl rfl) (lastVote_congr rfl rfl rfl) rfl rfl
    · rw [handleReplicated_of_skip happly]
      exact h.keep hlists rfl rfl rfl
  | heartbeat dst hb =>
    simp only [System.receive] at hs
    split at hs
    · rename_i c hheard
      cases hs
      obtain rfl := clusterNodeHeartbeat_ok hheard
      refine h.keep ((h.lists dst hdst).congr rfl ?_) (lastVote_congr rfl rfl rfl) rfl rfl
      exact map_nodeId_modifyNode (f := heardFrom hb nowMs) (fun _ => rfl) _ _
    · cases hs
      exact h

theorem Succession.clientWrite (h : Succession members s) (hn : n ∈ members)
    {method params : String} {autoFailover : Bool} {nowMs timeoutMs : ℕ}
    (hs : s.clientWrite n method params autoFailover nowMs timeoutMs = some s') :
    Succession members s' := by
  unfold System.clientWrite at hs
  split at hs
  · cases hs
  · split at hs
    · cases hs
    · rename_i st op hrecord
      obtain ⟨-, -, rfl⟩ := recordReplicationOp_some hrecord
      cases hs
      have hset : Succession members (s.setServer n (appendOp (s.servers n) op)) :=
        h.keep ((h.lists n hn).congr rfl rfl) (lastVote_congr rfl rfl rfl) rfl rfl
      have hwrite : Succession members
          ((s.setServer n (appendOp (s.servers n) op)).addWrite ⟨n, op⟩) := { hset with }
      refine hwrite.send ?_
      intro m hm
      obtain ⟨t, -, rfl⟩ := List.mem_map.mp hm
      trivial

theorem Succession.reportCommit (h : Succession members s) (n : NodeId) :
    Succession members (s.reportCommit n) := by
  unfold System.reportCommit
  dsimp only
  split_ifs
  · exact { h with }
  · exact h

theorem Succession.beat (h : Succession members s) (hn : n ∈ members) :
    Succession members (s.beat n) := by
  have hlists := h.lists n hn
  have hround : Succession members
      (s.setCluster n (runClusterHeartbeatOnce (s.servers n).cluster).1) := by
    unfold runClusterHeartbeatOnce
    dsimp only
    split_ifs
    · exact h.keep (hlists.congr rfl rfl) (lastVote_congr rfl rfl rfl) rfl rfl
    · exact h.keep hlists rfl rfl rfl
  refine (hround.reportCommit n).send ?_
  intro m hm
  split_ifs at hm
  · obtain ⟨p, -, rfl⟩ := List.mem_map.mp hm
    trivial
  · simp at hm

theorem Succession.catchUp (h : Succession members s) (hs : s.catchUp n = some s') :
    Succession members s' := by
  unfold System.catchUp at hs
  dsimp only at hs
  split_ifs at hs
  cases hs
  refine h.send ?_
  intro m hm
  obtain ⟨op, -, rfl⟩ := List.mem_map.mp hm
  trivial

/-- Elections, announcements and everything else that nodes do by themselves. -/
theorem Succession.act (h : Succession members s) {a : Action} (hmandated : MandatedAction s a)
    (hs : s.act a = some s') : Succession members s' := by
  cases a with
  | startElection n nowMs timeoutMs =>
    simp only [System.act, h.same] at hs
    split_ifs at hs with hn
    exact h.beginClusterElection hn hs
  | startShardElection n shardId nowMs timeoutMs =>
    simp only [System.act, h.same] at hs
    split_ifs at hs with hn
    exact h.beginShardElection hn hs
  | finishElection e heard => exact h.finish hmandated hs
  | deliver m nowMs =>
    simp only [System.act, h.same] at hs
    split_ifs at hs with hm
    exact h.receive hm.1 hm.2 hs
  | write n method params autoFailover nowMs timeoutMs =>
    simp only [System.act, h.same] at hs
    split_ifs at hs with hn
    exact h.clientWrite hn hs
  | heartbeat n =>
    simp only [System.act, h.same] at hs
    split_ifs at hs with hn
    cases hs
    exact h.beat hn
  | catchUp n =>
    simp only [System.act, h.same] at hs
    split_ifs at hs with hn
    exact h.catchUp hs

end Actions

section Requests
variable {members : List NodeId} {s s' : System} {n nodeId : NodeId} {c : ClusterStateModel}

/-- A state that a request may leave a node in: its leadership is the one it had, or a newer one
that no other primary holds or has won. -/
structure Entitled (members : List NodeId) (s : System) (n : NodeId) (c : ClusterStateModel) :
    Prop where
  lists : Lists members n c
  votes : lastVote c = lastVote (s.servers n).cluster
  leadership : (c.leadershipEpoch = (s.servers n).cluster.leadershipEpoch ∧
      c.primaryNodeId = (s.servers n).cluster.primaryNodeId) ∨
    ((c.primaryNodeId ≠ (s.servers n).cluster.primaryNodeId →
        (s.servers n).cluster.leadershipEpoch < c.leadershipEpoch) ∧
      Unheld s c.leadershipEpoch c.primaryNodeId ∧ Unwon s c.leadershipEpoch c.primaryNodeId)

theorem Entitled.succession (hc : Entitled members s n c) (h : Succession members s) :
    Succession members (s.setCluster n c) := by
  rcases hc.leadership with ⟨hepoch, hprimary⟩ | ⟨-, hheld, hwins⟩
  · exact h.keep hc.lists hc.votes hepoch hprimary
  · exact h.setServer hc.lists hc.votes
      (h.mandates.take n (h.uncontested hheld) hwins.unclaimed)

theorem Entitled.increases (hc : Entitled members s n c) : EpochIncreases s (s.setCluster n c) := by
  intro m hne
  by_cases hmn : m = n
  · subst hmn
    simp only [System.setCluster, System.setServer, Function.update_self] at hne ⊢
    rcases hc.leadership with ⟨-, hprimary⟩ | ⟨hnewer, -⟩
    · exact absurd hprimary hne
    · exact hnewer hne
  · simp [System.setCluster, System.setServer, hmn] at hne

theorem promote_entitled (hlists : Lists members n (s.servers n).cluster)
    {shardId : Option ShardId} {nowMs timeoutMs : ℕ} {answer : ℕ × ClusterStateModel}
    (hmandated : Mandated s (.promote n nodeId shardId nowMs timeoutMs))
    (hc : clusterReplicaPromote (s.servers n).cluster nodeId shardId none nowMs timeoutMs =
      .ok answer) : Entitled members s n answer.2 := by
  obtain ⟨hnode, ⟨rfl, hquorum, hanswer⟩ | ⟨id, epoch, -, hanswer⟩⟩ := clusterReplicaPromote_ok hc
  · have hquorum := hquorum.resolve_left (by simp)
    rw [hanswer]
    exact ⟨hlists.promote _ _ _, lastVote_congr rfl rfl rfl, Or.inr (hmandated hnode hquorum)⟩
  · rw [hanswer]
    exact ⟨hlists.congr rfl rfl, lastVote_congr rfl rfl rfl, Or.inl ⟨rfl, rfl⟩⟩

theorem leaveSuccessor_eq_none_iff : leaveSuccessor c nodeId = none ↔ QuietLeave c nodeId := by
  unfold leaveSuccessor QuietLeave
  split_ifs with hprimary
  · simp only [hprimary, forall_const, Option.map_eq_none_iff, List.find?_eq_none,
      decide_eq_true_eq, not_and]
    refine forall₂_congr fun row _ => forall_congr' fun _ => ?_
    cases row.status <;> simp
  · simp [hprimary]

theorem leaveSuccessor_ne {next : NodeId} (h : leaveSuccessor c nodeId = some next) :
    next ≠ c.primaryNodeId := by
  unfold leaveSuccessor at h
  split_ifs at h with hprimary
  obtain ⟨row, hfound, rfl⟩ := Option.map_eq_some_iff.mp h
  have hrow := List.find?_some hfound
  simp only [decide_eq_true_eq] at hrow
  rw [hprimary]
  exact hrow.1

/-- A node that leaves takes the primary with it exactly when another node is online. -/
theorem leave_keeps_iff {nowMs : ℕ} {answer : Option NodeId × ClusterStateModel}
    (hc : clusterNodeLeave c nodeId nowMs = .ok answer) :
    answer.2.primaryNodeId = c.primaryNodeId ↔ QuietLeave c nodeId := by
  obtain ⟨-, nodes, shards, -, hanswer⟩ := clusterNodeLeave_ok hc
  rw [hanswer, ← leaveSuccessor_eq_none_iff]
  cases hnext : leaveSuccessor c nodeId with
  | none => simp
  | some next => simpa using leaveSuccessor_ne hnext

theorem leave_entitled (hlists : Lists members n (s.servers n).cluster) {nowMs : ℕ}
    {answer : Option NodeId × ClusterStateModel}
    (hmandated : Mandated s (.leave n nodeId nowMs))
    (hc : clusterNodeLeave (s.servers n).cluster nodeId nowMs = .ok answer) :
    Entitled members s n answer.2 := by
  obtain ⟨hnode, nodes, shards, hids, hanswer⟩ := clusterNodeLeave_ok hc
  have hprimary := (leave_keeps_iff hc).mpr (hmandated hnode)
  rw [hanswer] at hprimary ⊢
  exact ⟨hlists.congr rfl hids, lastVote_congr rfl rfl rfl, Or.inl ⟨rfl, hprimary⟩⟩

theorem Lists.remove (h : Lists members n c) (nodeId primary : NodeId)
    (shards : List ClusterShard) : Lists members n { c with
      nodes := c.nodes.filter (·.nodeId ≠ nodeId)
      primaryNodeId := primary
      shards := shards } where
  localId := h.localId
  nodup := h.nodup.sublist (List.filter_sublist.map _)
  member id hid := h.member id ((List.filter_sublist.map _).subset hid)

/-- A node that is removed takes the primary with it, unless it is the local node and alone. -/
theorem remove_keeps_iff {force : Option Bool} {localRpcUrl : String} {nowMs : ℕ}
    {answer : Option NodeId × ClusterStateModel}
    (hc : clusterNodeRemove c nodeId force localRpcUrl nowMs = .ok answer) :
    answer.2.primaryNodeId = c.primaryNodeId ↔ QuietRemoval c nodeId := by
  obtain ⟨-, nodes, shards, primary, hanswer, hcases⟩ := clusterNodeRemove_ok hc
  rw [hanswer]
  rcases hcases with ⟨rfl, hother, -⟩ | ⟨hprimary, rfl, next, hnext, rfl⟩ | ⟨hprimary, hall, -, rfl⟩
  · exact iff_of_true rfl fun hprimary => absurd hprimary hother
  · obtain ⟨hrow, hne⟩ := List.mem_filter.mp hnext
    simp only [ne_eq, decide_eq_true_eq] at hne
    refine iff_of_false (fun hsame => hne (hsame.trans hprimary)) fun hquiet => ?_
    exact hne ((hquiet hprimary).2 next hrow)
  · constructor
    · exact fun hlocal _ => ⟨hprimary.symm.trans hlocal.symm, hall⟩
    · exact fun hquiet => (hquiet hprimary).1.symm.trans hprimary.symm

theorem remove_entitled (hn : n ∈ members) (hlists : Lists members n (s.servers n).cluster)
    {force : Option Bool} {localRpcUrl : String} {nowMs : ℕ}
    {answer : Option NodeId × ClusterStateModel}
    (hmandated : Mandated s (.remove n nodeId force localRpcUrl nowMs))
    (hc : clusterNodeRemove (s.servers n).cluster nodeId force localRpcUrl nowMs = .ok answer) :
    Entitled members s n answer.2 := by
  obtain ⟨hcheck, nodes, shards, primary, hanswer, hcases⟩ := clusterNodeRemove_ok hc
  have hkept := (remove_keeps_iff hc).mpr (hmandated hcheck)
  rw [hanswer] at hkept ⊢
  refine ⟨?_, lastVote_congr rfl rfl rfl, Or.inl ⟨rfl, hkept⟩⟩
  rcases hcases with ⟨-, -, rfl⟩ | ⟨-, rfl, -⟩ | ⟨-, -, rfl, -⟩
  · exact hlists.remove nodeId primary shards
  · exact hlists.remove nodeId primary shards
  · refine ⟨hlists.localId, by simp, ?_⟩
    intro id hid
    obtain rfl : id = (s.servers n).cluster.localNodeId := by simpa [newNode] using hid
    rw [hlists.localId]
    exact hn

/-- A request fails and changes nothing, or the node that serves it takes up the answer. -/
theorem serve_cases {α : Type} {result : Except RpcError (α × ClusterStateModel)}
    (hs : s.serve n (result.map (·.2)) = some s') : n ∈ s.members ∧
      (s' = s ∨ ∃ answer, result = .ok answer ∧ s' = s.setCluster n answer.2) := by
  cases result with
  | error e =>
    simp only [Except.map, System.serve] at hs
    split_ifs at hs with hn
    exact ⟨hn, Or.inl (Option.some.inj hs).symm⟩
  | ok answer =>
    simp only [Except.map, System.serve] at hs
    split_ifs at hs with hn
    exact ⟨hn, Or.inr ⟨answer, rfl, (Option.some.inj hs).symm⟩⟩

/-- One operation keeps the evidence and increases the epoch where it changes the primary. -/
theorem Succession.operate (h : Succession members s) {op : Operation} (hmandated : Mandated s op)
    (hs : s.operate op = some s') : Succession members s' ∧ EpochIncreases s s' := by
  have hunchanged : Succession members s ∧ EpochIncreases s s := ⟨h, fun _ hne => absurd rfl hne⟩
  cases op with
  | act a => exact ⟨h.act hmandated hs, fun n => (act_advances hs n).primary⟩
  | promote n nodeId shardId nowMs timeoutMs =>
    obtain ⟨hn, rfl | ⟨answer, hc, rfl⟩⟩ := serve_cases hs
    · exact hunchanged
    · have hentitled := promote_entitled (h.lists n (h.same ▸ hn)) hmandated hc
      exact ⟨hentitled.succession h, hentitled.increases⟩
  | leave n nodeId nowMs =>
    obtain ⟨hn, rfl | ⟨answer, hc, rfl⟩⟩ := serve_cases hs
    · exact hunchanged
    · have hentitled := leave_entitled (h.lists n (h.same ▸ hn)) hmandated hc
      exact ⟨hentitled.succession h, hentitled.increases⟩
  | remove n nodeId force localRpcUrl nowMs =>
    obtain ⟨hn, rfl | ⟨answer, hc, rfl⟩⟩ := serve_cases hs
    · exact hunchanged
    · have hmem : n ∈ members := h.same ▸ hn
      have hentitled := remove_entitled hmem (h.lists n hmem) hmandated hc
      exact ⟨hentitled.succession h, hentitled.increases⟩

end Requests

section Runs
variable {members : List NodeId} {shardMembers : ShardId → List NodeId} {s s' : System}

theorem operateAll_cons {op : Operation} {ops : List Operation} :
    s.operateAll (op :: ops) = some s' ↔
      ∃ t, s.operate op = some t ∧ t.operateAll ops = some s' := by
  simp only [System.operateAll, List.foldlM_cons, Option.bind_eq_bind, Option.bind_eq_some_iff]

theorem Succession.operateAll {before after : List Operation} (h : Succession members s)
    (hmandated : MandatedRun s (before ++ after)) (hs : s.operateAll before = some s') :
    Succession members s' ∧ MandatedRun s' after := by
  induction before generalizing s with
  | nil =>
    cases hs
    exact ⟨h, hmandated⟩
  | cons op before ih =>
    obtain ⟨t, hop, hrest⟩ := operateAll_cons.mp hs
    exact ih (h.operate hmandated.1 hop).1 (hmandated.2 t hop) hrest

theorem Formed.succession (h : Formed members shardMembers s) (hagreed : PrimaryAgreed s) :
    Succession members s where
  same := h.same
  nodup := h.nodup
  lists n hn :=
    let hknows := h.knows n hn
    { localId := hknows.localId
      nodup := hknows.nodeIds.nodup_iff.mpr h.nodup
      member := fun _ hid => hknows.nodeIds.mem_iff.mp hid }
  warranted := by simp [h.network]
  candidate := by simp [h.elections]
  canvass := by simp [h.elections]
  selfVote := by simp [h.elections]
  mandates := {
    recorded := h.inv.recorded
    elected := by simp [leadership, h.wins]
    winners := by simp [leadership, h.wins]
    agree := by
      intro n hn m hm hepoch
      rw [List.mem_toFinset, ← h.same] at hn hm
      exact hagreed n hn m hm hepoch }

/-- In every run of mandated operations from a cluster whose members agree, an epoch has one
primary, and every operation that changes the primary of a node increases its epoch. -/
theorem epoch_identifies_primary {s₀ : System} {ops : List Operation}
    (hformed : Formed members shardMembers s₀) (hagreed : PrimaryAgreed s₀)
    (hmandated : MandatedRun s₀ ops) : EpochIdentifiesPrimary s₀ ops where
  agreed := by
    rintro before after rfl s hs
    exact ((hformed.succession hagreed).operateAll hmandated hs).1.agreed
  increases := by
    rintro before op after rfl s s' hs hop
    obtain ⟨h, hrest⟩ := (hformed.succession hagreed).operateAll hmandated hs
    exact (h.operate hrest.1 hop).2

end Runs

/-- `c` is elected and announced to `b`, then hands over to `b`, and `a` is removed on `b`. -/
def sampleHandoff : List Operation := [
  .act (.startElection "c" 9000 5000),
  .act (.deliver (.requestVote "b" "c" 1 0 0 none) 9000),
  .act (.finishElection ⟨"c", none, 1, 2, ["a", "b"], 0, 0, 9000, 5000⟩ ["b"]),
  .act (.deliver (.leaderAnnounce "b" "c" 1 none) 9000),
  .promote "c" "b" none 9000 5000,
  .remove "b" "a" none "http://b" 9000]

theorem sampleSystem_agreed : PrimaryAgreed sampleSystem := fun _ _ _ _ _ => rfl

theorem epoch_identifies_primary_sample :
    ((sampleSystem.operateAll sampleHandoff).map fun s => s.members.map fun n =>
      ((s.servers n).cluster.leadershipEpoch, (s.servers n).cluster.primaryNodeId)) =
        some [(0, "a"), (1, "c"), (2, "b")] ∧
    EpochIdentifiesPrimary sampleSystem sampleHandoff :=
  ⟨by decide, epoch_identifies_primary sampleSystem_formed sampleSystem_agreed (by decide)⟩

def sampleRetirement : Operation := .leave "b" "a" 9000

theorem sampleRetirement_isSome : (sampleSystem.operate sampleRetirement).isSome := by decide

/-- `a` retires by a request to `b`, which takes itself for primary under the epoch under which `c`
goes on to take `a` for it. -/
theorem epoch_with_two_primaries :
    ∃ s, sampleSystem.operate sampleRetirement = some s ∧
      (s.servers "b").cluster.leadershipEpoch = (s.servers "c").cluster.leadershipEpoch ∧
      (s.servers "b").cluster.primaryNodeId = "b" ∧ (s.servers "c").cluster.primaryNodeId = "a" ∧
      ¬ EpochIdentifiesPrimary sampleSystem [sampleRetirement] := by
  have hop := (Option.some_get sampleRetirement_isSome).symm
  refine ⟨_, hop, by decide, by decide, by decide, fun h => ?_⟩
  have hagreed := h.agreed [sampleRetirement] [] rfl _ (operateAll_cons.mpr ⟨_, hop, rfl⟩)
  have hsame := hagreed "b" (by decide) "c" (by decide) (by decide)
  revert hsame
  decide

end SkeinDB.Cluster
