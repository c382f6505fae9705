import SkeinDB.Cluster.Membership
import SkeinDB.Cluster.Election

/-!
# The membership invariant

In a sound cluster state the primary is a node of the table, it alone has the role of primary,
node ids are distinct, and no shard has its primary among its replicas. Most handlers keep this
in every state. A join under a role that does not fit, the removal of the primary and a win of a
node that is no longer in its own table do not.
-/
namespace SkeinDB.Cluster
open Consensus Format

/-- `primary` is in the table, alone in its role, and ids are distinct. -/
structure Seated (primary : NodeId) (nodes : List ClusterNode) : Prop where
  mem : primary ∈ nodes.map (·.nodeId)
  role : ∀ n ∈ nodes, n.role = .primary ↔ n.nodeId = primary
  nodup : (nodes.map (·.nodeId)).Nodup

instance (primary : NodeId) (nodes : List ClusterNode) : Decidable (Seated primary nodes) :=
  decidable_of_iff (primary ∈ nodes.map (·.nodeId) ∧
      (∀ n ∈ nodes, n.role = .primary ↔ n.nodeId = primary) ∧ (nodes.map (·.nodeId)).Nodup)
    ⟨fun h => ⟨h.1, h.2.1, h.2.2⟩, fun h => ⟨h.mem, h.role, h.nodup⟩⟩

/-- A shard does not list its primary as a replica. -/
def ClusterShard.Sound (shard : ClusterShard) : Prop := shard.primaryNodeId ∉ shard.replicas

structure Sound (c : ClusterStateModel) : Prop where
  seated : Seated c.primaryNodeId c.nodes
  shards : ∀ shard ∈ c.shards, shard.Sound

/-- A node and the shard moves it has under way. -/
structure Roster where
  cluster : ClusterStateModel
  moves : List ClusterShard

inductive MemberOp
  | createToken (token : String) (role : Option NodeRole) (ttlMs maxUses : Option ℕ) (nowMs : ℕ)
  | join (params : ClusterNodeJoinParams) (nowMs : ℕ)
  | remove (nodeId : NodeId) (force : Option Bool) (nowMs : ℕ)
  | leave (nodeId : NodeId) (nowMs : ℕ)
  | promote (nodeId : NodeId) (shardId : Option ShardId) (force : Option Bool)
      (nowMs timeoutMs : ℕ)
  | announce (nodeId : NodeId) (epoch : ℕ) (shardId : Option ShardId) (nowMs : ℕ)
  | requestVote (candidate : NodeId) (term appliedOps : ℕ) (last : Position)
      (shardId : Option ShardId)
  | elected (e : Election) (votes : ℕ)
  | heartbeat (hb : Heartbeat) (nowMs : ℕ)
  | createShard (params : ClusterShardCreateParams) (generated : ShardId)
  | previewMove (shardId : ShardId) (toNodeId : NodeId)
  | commitMove (preview : ClusterShard)
  | restart (nowMs : ℕ)

namespace Roster

def start (localNodeId : NodeId) (localRpcUrl : String) (nowMs : ℕ) : Roster :=
  ⟨bootstrap localNodeId localRpcUrl nowMs, []⟩

/-- A failed request leaves the state as it is. -/
def update (r : Roster) : Except RpcError ClusterStateModel → Roster
  | .ok c => { r with cluster := c }
  | .error _ => r

def step (localRpcUrl : String) (r : Roster) : MemberOp → Roster
  | .createToken token role ttlMs maxUses nowMs =>
    { r with cluster := clusterJoinTokenCreate r.cluster token role ttlMs maxUses nowMs }
  | .join params nowMs => { r with cluster := (clusterNodeJoin r.cluster params nowMs).2 }
  | .remove nodeId force nowMs =>
    r.update ((clusterNodeRemove r.cluster nodeId force localRpcUrl nowMs).map (·.2))
  | .leave nodeId nowMs => r.update ((clusterNodeLeave r.cluster nodeId nowMs).map (·.2))
  | .promote nodeId shardId force nowMs timeoutMs =>
    r.update ((clusterReplicaPromote r.cluster nodeId shardId force nowMs timeoutMs).map (·.2))
  | .announce nodeId epoch shardId nowMs =>
    r.update (clusterLeaderAnnounce r.cluster nodeId epoch shardId nowMs)
  | .requestVote candidate term appliedOps last shardId =>
    r.update ((clusterRequestVote r.cluster candidate term appliedOps last shardId).map (·.2))
  | .elected e votes =>
    match promoteElected r.cluster e votes with
    | some c => { r with cluster := c }
    | none => r
  | .heartbeat hb nowMs => r.update (clusterNodeHeartbeat r.cluster hb nowMs)
  | .createShard params generated =>
    { r with cluster := (clusterShardCreate r.cluster params generated).2 }
  | .previewMove shardId toNodeId =>
    match previewShardMove r.cluster shardId toNodeId with
    | .ok preview => { r with moves := preview :: r.moves }
    | .error _ => r
  | .commitMove preview =>
    if preview ∈ r.moves then r.update (commitShardMove r.cluster preview) else r
  | .restart nowMs => { r with cluster := loadClusterState r.cluster localRpcUrl nowMs }

def run (localRpcUrl : String) (r : Roster) (ops : List MemberOp) : Roster :=
  ops.foldl (step localRpcUrl) r

end Roster

/-- The first element is listed once. -/
def HeadOnce : List NodeId → Prop
  | [] => True
  | next :: rest => next ∉ rest

/-- The replica that takes over the shard when `nodeId` is removed is listed once. -/
def HeirOnce (nodeId : NodeId) (shard : ClusterShard) : Prop :=
  HeadOnce (shard.replicas.filter (· ≠ nodeId))

/-- Whether an operation keeps the membership in order: a node that joins gets the role of primary
exactly if it is the primary; the primary is removed only when no other node is left, and a shard
primary only if its heir is listed once; and a node takes the cluster over only while it is in
its own table. -/
def Orderly (c : ClusterStateModel) : MemberOp → Prop
  | .join params nowMs =>
    match usableToken (cleanupJoinTokens c nowMs).joinTokens params.token nowMs with
    | .ok token =>
      params.role.getD token.role = NodeRole.primary ↔ params.nodeId = c.primaryNodeId
    | .error _ => True
  | .remove nodeId force _ =>
    match checkRemoval c nodeId force with
    | .ok _ =>
      (nodeId = c.primaryNodeId → c.nodes.filter (·.nodeId ≠ nodeId) = []) ∧
        ∀ shard ∈ c.shards, shard.primaryNodeId = nodeId → HeirOnce nodeId shard
    | .error _ => True
  | .elected e votes =>
    e.shardId = none → e.quorum ≤ votes → c.leadershipEpoch < e.term →
      clusterHasQuorum c.nodes c.localNodeId e.nowMs e.timeoutMs →
        c.localNodeId ∈ c.nodes.map (·.nodeId)
  | _ => True

/-- Every operation of a run is orderly where it is made. -/
def OrderlyRun (localRpcUrl : String) (r : Roster) : List MemberOp → Prop
  | [] => True
  | op :: ops => Orderly r.cluster op ∧ OrderlyRun localRpcUrl (r.step localRpcUrl op) ops

section Table
variable {primary : NodeId} {nodes : List ClusterNode}

/-- A change to one row that keeps its id and role. -/
theorem Seated.modify (h : Seated primary nodes) {f : ClusterNode → ClusterNode}
    (hid : ∀ n, (f n).nodeId = n.nodeId) (hrole : ∀ n, (f n).role = n.role) (nodeId : NodeId) :
    Seated primary (modifyNode f nodeId nodes) := by
  have hids := map_nodeId_modifyNode hid nodeId nodes
  refine ⟨hids ▸ h.mem, ?_, hids ▸ h.nodup⟩
  intro n hn
  rcases mem_modifyNode hn with hn | ⟨m, hm, -, rfl⟩
  · exact h.role n hn
  · rw [hrole, hid]
    exact h.role m hm

theorem Seated.promote (h : Seated primary nodes) {nodeId : NodeId}
    (hnode : nodeId ∈ nodes.map (·.nodeId)) (nowMs : ℕ) :
    Seated nodeId (nodes.map (promoteNode nodeId primary nowMs)) := by
  have hids : (nodes.map (promoteNode nodeId primary nowMs)).map (·.nodeId) =
      nodes.map (·.nodeId) := by simp [Function.comp_def]
  refine ⟨hids ▸ hnode, ?_, hids ▸ h.nodup⟩
  intro n hn
  obtain ⟨m, hm, rfl⟩ := List.mem_map.mp hn
  rw [promoteNode_nodeId]
  unfold promoteNode
  split_ifs with hnew hold
  · simp [hnew]
  · simp [hnew]
  · have hrole := h.role m hm
    simp only [hold, iff_false] at hrole
    simp [hrole, hnew]

/-- The successor of a primary that left is alone in its role, whatever the roles were. -/
theorem seated_succeed {next : NodeId} (hnext : next ∈ nodes.map (·.nodeId))
    (hnodup : (nodes.map (·.nodeId)).Nodup) : Seated next (nodes.map (succeed next)) := by
  have hid : ∀ n, (succeed next n).nodeId = n.nodeId := by
    intro n
    unfold succeed
    split_ifs <;> rfl
  have hids : (nodes.map (succeed next)).map (·.nodeId) = nodes.map (·.nodeId) := by
    simp [Function.comp_def, hid]
  refine ⟨hids ▸ hnext, ?_, hids ▸ hnodup⟩
  intro n hn
  obtain ⟨m, -, rfl⟩ := List.mem_map.mp hn
  rw [hid]
  unfold succeed
  split_ifs with hnew hrole
  · simp [hnew]
  · simp [hnew]
  · simp [hnew, hrole]

theorem Seated.remove (h : Seated primary nodes) {nodeId : NodeId} (hne : nodeId ≠ primary) :
    Seated primary (nodes.filter (·.nodeId ≠ nodeId)) := by
  refine ⟨?_, fun n hn => h.role n (List.mem_of_mem_filter hn), ?_⟩
  · obtain ⟨n, hn, hid⟩ := List.mem_map.mp h.mem
    refine List.mem_map.mpr ⟨n, List.mem_filter.mpr ⟨hn, ?_⟩, hid⟩
    simpa [hid] using hne.symm
  · exact h.nodup.sublist (List.filter_sublist.map _)

theorem seated_singleton (nodeId : NodeId) (rpcUrl : String) (nowMs : ℕ) :
    Seated nodeId [newNode nodeId rpcUrl .primary nowMs] :=
  ⟨by simp [newNode], by simp [newNode], by simp⟩

theorem Seated.append (h : Seated primary nodes) {nodeId : NodeId} {role : NodeRole}
    (hnew : nodeId ∉ nodes.map (·.nodeId)) (hrole : role ≠ .primary) (rpcUrl : String)
    (nowMs : ℕ) : Seated primary (nodes ++ [newNode nodeId rpcUrl role nowMs]) := by
  have hne : nodeId ≠ primary := fun heq => hnew (heq ▸ h.mem)
  refine ⟨?_, ?_, ?_⟩
  · rw [List.map_append]
    exact List.mem_append_left _ h.mem
  · intro n hn
    rcases List.mem_append.mp hn with hn | hn
    · exact h.role n hn
    · rw [List.mem_singleton.mp hn]
      simp [newNode, hrole, hne]
  · rw [List.map_append, List.nodup_append]
    refine ⟨h.nodup, by simp, ?_⟩
    rintro a ha b hb rfl
    exact hnew (by simpa [newNode, List.mem_singleton.mp hb] using ha)

theorem exists_mem_modifyNode {f : ClusterNode → ClusterNode} {nodeId : NodeId}
    (h : nodeId ∈ nodes.map (·.nodeId)) :
    ∃ m ∈ nodes, m.nodeId = nodeId ∧ f m ∈ modifyNode f nodeId nodes := by
  induction nodes with
  | nil => simp at h
  | cons node nodes ih =>
    unfold modifyNode
    split_ifs with hid
    · exact ⟨node, by simp, hid, by simp⟩
    · rw [List.map_cons, List.mem_cons] at h
      rcases h with rfl | h
      · exact absurd rfl hid
      · obtain ⟨m, hm, hmid, hf⟩ := ih h
        exact ⟨m, List.mem_cons_of_mem _ hm, hmid, List.mem_cons_of_mem _ hf⟩

/-- A node may register under the role of primary exactly if it is the primary. -/
theorem Seated.register_iff (h : Seated primary nodes) (nodeId : NodeId) (rpcUrl : String)
    (role : NodeRole) (nowMs : ℕ) : Seated primary (registerNode nodes nodeId rpcUrl role nowMs) ↔
      (role = .primary ↔ nodeId = primary) := by
  unfold registerNode
  split_ifs with hknown
  · set rejoin : ClusterNode → ClusterNode := fun n =>
      { n with rpcUrl := rpcUrl, role := role, status := .online, lastSeenMs := nowMs }
    have hids := map_nodeId_modifyNode (f := rejoin) (fun _ => rfl) nodeId nodes
    constructor
    · intro hseated
      obtain ⟨m, -, rfl, hm⟩ := exists_mem_modifyNode (f := rejoin) hknown
      exact hseated.role _ hm
    · intro hrole
      refine ⟨hids ▸ h.mem, ?_, hids ▸ h.nodup⟩
      intro n hn
      rcases mem_modifyNode hn with hn | ⟨m, -, rfl, rfl⟩
      · exact h.role n hn
      · exact hrole
  · have hne : nodeId ≠ primary := fun heq => hknown (heq ▸ h.mem)
    constructor
    · intro hseated
      have hrole := hseated.role (newNode nodeId rpcUrl role nowMs) (by simp)
      exact hrole
    · intro hrole
      exact h.append hknown (fun hprimary => hne (hrole.mp hprimary)) rpcUrl nowMs

end Table

section ShardSoundness
variable {shard : ClusterShard}

theorem applyShardPromotion_sound (shard : ClusterShard) (nodeId : NodeId) (epoch : ℕ) :
    (applyShardPromotion shard nodeId epoch).Sound := by
  simp only [ClusterShard.Sound, applyShardPromotion]
  split_ifs with hold
  · simp [Ne.symm hold.1]
  · simp

theorem removeFromShard_sound_iff (h : shard.Sound) (nodeId localNodeId : NodeId) :
    (removeFromShard nodeId localNodeId shard).Sound ↔
      (shard.primaryNodeId = nodeId → HeirOnce nodeId shard) := by
  unfold removeFromShard HeirOnce
  by_cases hprimary : shard.primaryNodeId = nodeId
  · cases hreplicas : shard.replicas.filter (· ≠ nodeId) with
    | nil => simp [hprimary, ClusterShard.Sound, HeadOnce]
    | cons next rest => simp [hprimary, ClusterShard.Sound, HeadOnce]
  · simp only [hprimary, if_false, false_imp_iff, iff_true]
    exact fun hmem => h (List.mem_of_mem_filter hmem)

theorem leaveShard_sound (h : shard.Sound) (nodeId : NodeId) (online : List NodeId)
    (newPrimary : Option NodeId) : (leaveShard nodeId online newPrimary shard).Sound := by
  simp only [leaveShard]
  split_ifs with hprimary
  · split
    · simp [ClusterShard.Sound]
    · simp [ClusterShard.Sound, hprimary]
  · exact fun hmem => h (List.mem_of_mem_filter hmem)

theorem mem_modifyShard {f : ClusterShard → ClusterShard} {shardId : ShardId}
    {shards : List ClusterShard} {s : ClusterShard} (h : s ∈ modifyShard f shardId shards) :
    s ∈ shards ∨ ∃ t ∈ shards, s = f t := by
  induction shards with
  | nil => simp [modifyShard] at h
  | cons shard shards ih =>
    unfold modifyShard at h
    split_ifs at h
    · rcases List.mem_cons.mp h with rfl | h
      · exact Or.inr ⟨shard, by simp, rfl⟩
      · exact Or.inl (List.mem_cons_of_mem _ h)
    · rcases List.mem_cons.mp h with rfl | h
      · exact Or.inl (by simp)
      · rcases ih h with h | ⟨t, ht, rfl⟩
        · exact Or.inl (List.mem_cons_of_mem _ h)
        · exact Or.inr ⟨t, List.mem_cons_of_mem _ ht, rfl⟩

theorem Sound.modifyShard {c : ClusterStateModel} (h : Sound c) {f : ClusterShard → ClusterShard}
    (hf : ∀ shard, (f shard).Sound) (shardId : ShardId) :
    Sound { c with shards := modifyShard f shardId c.shards } := by
  refine ⟨h.seated, ?_⟩
  intro shard hshard
  rcases mem_modifyShard hshard with hshard | ⟨t, -, rfl⟩
  · exact h.shards shard hshard
  · exact hf t

end ShardSoundness

section Handlers
variable {c c' : ClusterStateModel}

/-- Only the primary, the table and the shards matter. -/
theorem Sound.congr (h : Sound c) (hprimary : c'.primaryNodeId = c.primaryNodeId)
    (hnodes : c'.nodes = c.nodes) (hshards : c'.shards = c.shards) : Sound c' :=
  ⟨by rw [hprimary, hnodes]; exact h.seated, by rw [hshards]; exact h.shards⟩

theorem clusterNodeJoin_sound_iff (h : Sound c) (params : ClusterNodeJoinParams) (nowMs : ℕ) :
    Sound (clusterNodeJoin c params nowMs).2 ↔ Orderly c (.join params nowMs) := by
  simp only [clusterNodeJoin, Orderly]
  cases husable : usableToken (cleanupJoinTokens c nowMs).joinTokens params.token nowMs with
  | error e => exact iff_of_true (h.congr rfl rfl rfl) trivial
  | ok token =>
    have hregister := h.seated.register_iff params.nodeId params.rpcUrl
      (params.role.getD token.role) nowMs
    exact ⟨fun hsound => hregister.mp hsound.seated, fun hrole => ⟨hregister.mpr hrole, h.shards⟩⟩

/-- The shards stay sound through a removal exactly when each heir is listed once. -/
theorem removeFromShards_sound_iff (h : ∀ shard ∈ c.shards, shard.Sound) (nodeId : NodeId) :
    (∀ shard ∈ c.shards.map (removeFromShard nodeId c.localNodeId), shard.Sound) ↔
      ∀ shard ∈ c.shards, shard.primaryNodeId = nodeId → HeirOnce nodeId shard := by
  simp only [List.forall_mem_map]
  refine forall₂_congr fun shard hshard => ?_
  exact removeFromShard_sound_iff (h shard hshard) nodeId c.localNodeId

theorem clusterNodeRemove_sound_iff (h : Sound c) (nodeId : NodeId) (force : Option Bool)
    (localRpcUrl : String) (nowMs : ℕ) :
    (∀ result, clusterNodeRemove c nodeId force localRpcUrl nowMs = .ok result →
      Sound result.2) ↔ Orderly c (.remove nodeId force nowMs) := by
  have hshards := removeFromShards_sound_iff h.shards nodeId
  simp only [clusterNodeRemove, Orderly, bind, Except.bind]
  cases hcheck : checkRemoval c nodeId force with
  | error e => simp
  | ok _ =>
    simp only
    by_cases hprimary : c.primaryNodeId = nodeId
    · rw [if_pos hprimary]
      cases hrest : c.nodes.filter (·.nodeId ≠ nodeId) with
      | nil =>
        simp only [Except.ok.injEq, forall_eq', implies_true, true_and]
        rw [← hshards]
        exact ⟨fun hsound => hsound.shards, fun hsound => ⟨seated_singleton _ _ _, hsound⟩⟩
      | cons next rest =>
        -- the successor keeps its role, which is not that of primary
        refine iff_of_false ?_ ?_
        · intro hsound
          have hrole := (hsound _ rfl).seated.role next (by simp)
          have hmem : next ∈ c.nodes.filter (·.nodeId ≠ nodeId) := by
            rw [hrest]
            exact List.mem_cons_self
          obtain ⟨hnode, hother⟩ := List.mem_filter.mp hmem
          rw [h.seated.role next hnode, hprimary] at hrole
          simp only [iff_true] at hrole
          simp [hrole] at hother
        · rintro ⟨hlast, -⟩
          cases hlast hprimary.symm
    · rw [if_neg hprimary]
      have hne : nodeId ≠ c.primaryNodeId := Ne.symm hprimary
      simp only [Except.ok.injEq, forall_eq', hne, false_imp_iff, true_and]
      rw [← hshards]
      exact ⟨fun hsound => hsound.shards, fun hsound => ⟨h.seated.remove hne, hsound⟩⟩

theorem clusterNodeLeave_sound (h : Sound c) {nodeId : NodeId} {nowMs : ℕ}
    {result : Option NodeId × ClusterStateModel}
    (hleave : clusterNodeLeave c nodeId nowMs = .ok result) : Sound result.2 := by
  unfold clusterNodeLeave at hleave
  split_ifs at hleave
  obtain rfl := Except.ok.inj hleave
  have hshards : ∀ online newPrimary, ∀ shard ∈ c.shards.map (leaveShard nodeId online newPrimary),
      shard.Sound := by
    intro online newPrimary
    simp only [List.forall_mem_map]
    exact fun shard hshard => leaveShard_sound (h.shards shard hshard) nodeId online newPrimary
  set goOffline : ClusterNode → ClusterNode := fun n =>
    { n with status := .offline, lastSeenMs := nowMs }
  have hids := map_nodeId_modifyNode (f := goOffline) (fun _ => rfl) nodeId c.nodes
  have hgone : Seated c.primaryNodeId (modifyNode goOffline nodeId c.nodes) :=
    h.seated.modify (f := goOffline) (fun _ => rfl) (fun _ => rfl) nodeId
  cases hnext : leaveSuccessor c nodeId with
  | none => exact ⟨hgone, hshards _ _⟩
  | some next =>
    have hmem : next ∈ c.nodes.map (·.nodeId) := by
      unfold leaveSuccessor at hnext
      split_ifs at hnext
      obtain ⟨n, hfound, rfl⟩ := Option.map_eq_some_iff.mp hnext
      exact List.mem_map.mpr ⟨n, List.mem_of_find?_eq_some hfound, rfl⟩
    exact ⟨seated_succeed (hids ▸ hmem) (hids ▸ h.seated.nodup), hshards _ _⟩

theorem Sound.promote (h : Sound c) {nodeId : NodeId} (hnode : nodeId ∈ c.nodes.map (·.nodeId))
    (epoch nowMs : ℕ) : Sound (applyWholeClusterPromotion c nodeId epoch nowMs) :=
  ⟨h.seated.promote hnode nowMs, h.shards⟩

theorem Sound.promoteShard (h : Sound c) (nodeId : NodeId) (epoch : ℕ) (shardId : ShardId) :
    Sound { c with
      shards := Cluster.modifyShard (applyShardPromotion · nodeId epoch) shardId c.shards } :=
  h.modifyShard (fun shard => applyShardPromotion_sound shard nodeId epoch) shardId

theorem clusterReplicaPromote_sound (h : Sound c) {nodeId : NodeId} {shardId : Option ShardId}
    {force : Option Bool} {nowMs timeoutMs : ℕ} {result : ℕ × ClusterStateModel}
    (hpromote : clusterReplicaPromote c nodeId shardId force nowMs timeoutMs = .ok result) :
    Sound result.2 := by
  obtain ⟨hnode, ⟨-, -, hresult⟩ | ⟨id, epoch, -, hresult⟩⟩ := clusterReplicaPromote_ok hpromote
  · rw [hresult]
    exact h.promote hnode _ nowMs
  · rw [hresult]
    exact h.promoteShard nodeId epoch id

theorem clusterLeaderAnnounce_sound (h : Sound c) {nodeId : NodeId} {epoch nowMs : ℕ}
    {shardId : Option ShardId}
    (hannounce : clusterLeaderAnnounce c nodeId epoch shardId nowMs = .ok c') : Sound c' := by
  have hnode : nodeId ∈ c.nodes.map (·.nodeId) := by
    by_contra hnode
    unfold clusterLeaderAnnounce at hannounce
    rw [if_pos hnode] at hannounce
    cases hannounce
  rcases clusterLeaderAnnounce_ok hannounce with rfl | ⟨-, -, rfl⟩ | ⟨id, -, rfl⟩
  · exact h
  · exact h.promote hnode epoch nowMs
  · exact h.promoteShard nodeId epoch id

/-- A win of the whole cluster keeps the state sound exactly if the winner is in its table. -/
theorem promoteElected_sound_iff (h : Sound c) (e : Election) (votes : ℕ) :
    (∀ c', promoteElected c e votes = some c' → Sound c') ↔ Orderly c (.elected e votes) := by
  cases hrace : e.shardId with
  | some id =>
    refine iff_of_true ?_ ?_
    · intro c' hc
      obtain rfl := promoteElected_shard hrace hc
      exact h.promoteShard _ _ id
    · simp [Orderly, hrace]
  | none =>
    constructor
    · intro hsound _ hvotes hnew hquorum
      have hwin : promoteElected c e votes =
          some (applyWholeClusterPromotion c c.localNodeId e.term e.nowMs) := by
        rw [promoteElected, if_neg (not_lt.mpr hvotes), hrace]
        simp [hnew, hquorum]
      have hids : ((applyWholeClusterPromotion c c.localNodeId e.term e.nowMs).nodes.map
          (·.nodeId)) = c.nodes.map (·.nodeId) := by
        simp [applyWholeClusterPromotion, Function.comp_def]
      exact hids ▸ (hsound _ hwin).seated.mem
    · intro horderly c' hc
      obtain ⟨hnew, hc'⟩ := promoteElected_cluster hrace hc
      have hwins : e.quorum ≤ votes ∧
          clusterHasQuorum c.nodes c.localNodeId e.nowMs e.timeoutMs = true := by
        unfold promoteElected at hc
        rw [hrace] at hc
        split_ifs at hc with hvotes hbail
        simp only [not_or, not_not] at hbail
        exact ⟨not_lt.mp hvotes, hbail.2⟩
      rw [hc']
      exact h.promote (horderly hrace hwins.1 hnew hwins.2) _ _

theorem clusterShardCreate_sound (h : Sound c) (params : ClusterShardCreateParams)
    (generated : ShardId) : Sound (clusterShardCreate c params generated).2 := by
  simp only [clusterShardCreate]
  split_ifs
  · exact h.congr rfl rfl rfl
  · refine ⟨h.seated, ?_⟩
    intro shard hshard
    rcases List.mem_append.mp hshard with hshard | hshard
    · exact h.shards shard hshard
    · rw [List.mem_singleton.mp hshard]
      simp [ClusterShard.Sound]
  · exact h.congr rfl rfl rfl

theorem previewShardMove_sound {shardId : ShardId} {toNodeId : NodeId} {preview : ClusterShard}
    (hpreview : previewShardMove c shardId toNodeId = .ok preview) : preview.Sound := by
  unfold previewShardMove at hpreview
  split_ifs at hpreview
  cases hshard : findShard c shardId with
  | none => simp [hshard] at hpreview
  | some shard =>
    rw [hshard] at hpreview
    obtain rfl := Except.ok.inj hpreview
    exact applyShardPromotion_sound shard toNodeId _

theorem commitShardMove_sound (h : Sound c) {preview : ClusterShard} (hsound : preview.Sound)
    (hcommit : commitShardMove c preview = .ok c') : Sound c' := by
  unfold commitShardMove at hcommit
  split at hcommit
  · cases hcommit
  · obtain rfl := Except.ok.inj hcommit
    exact h.modifyShard (fun _ => hsound) preview.shardId

theorem loadClusterState_sound (h : Sound c) (localRpcUrl : String) (nowMs : ℕ) :
    Sound (loadClusterState c localRpcUrl nowMs) := by
  simp only [loadClusterState]
  by_cases hlocal : c.localNodeId ∈ c.nodes.map (·.nodeId)
  · rw [if_pos hlocal]
    refine ⟨h.seated.modify ?_ ?_ _, h.shards⟩
    · exact fun _ => rfl
    · exact fun _ => rfl
  · have hne : c.localNodeId ≠ c.primaryNodeId := fun heq => hlocal (heq ▸ h.seated.mem)
    rw [if_neg hlocal, if_neg hne]
    exact ⟨h.seated.append hlocal (by simp) localRpcUrl nowMs, h.shards⟩

end Handlers

section Runs
variable {localRpcUrl : String}

structure Roster.Sound (r : Roster) : Prop where
  cluster : Cluster.Sound r.cluster
  moves : ∀ preview ∈ r.moves, preview.Sound

theorem bootstrap_sound (localNodeId : NodeId) (localRpcUrl : String) (nowMs : ℕ) :
    (Roster.start localNodeId localRpcUrl nowMs).Sound where
  cluster := ⟨seated_singleton localNodeId localRpcUrl nowMs, by simp [Roster.start, bootstrap]⟩
  moves := by simp [Roster.start]

/-- A handler that answers or fails keeps the state sound if its answers do. -/
theorem Roster.Sound.update_iff {r : Roster} (h : r.Sound)
    (result : Except RpcError ClusterStateModel) :
    Cluster.Sound (r.update result).cluster ↔ ∀ c, result = .ok c → Cluster.Sound c := by
  cases result with
  | error e => simp [Roster.update, h.cluster]
  | ok c => simp [Roster.update]

theorem map_snd_eq_ok {α : Type} {result : Except RpcError (α × ClusterStateModel)}
    {c : ClusterStateModel} :
    result.map (·.2) = .ok c ↔ ∃ answer, result = .ok answer ∧ answer.2 = c := by
  cases result with
  | error e => simp [Except.map]
  | ok answer => simp [Except.map]

/-- One operation keeps the state sound if and only if it is orderly. -/
theorem Roster.Sound.step_iff {r : Roster} (h : r.Sound) (op : MemberOp) :
    Cluster.Sound (r.step localRpcUrl op).cluster ↔ Orderly r.cluster op := by
  cases op with
  | createToken token role ttlMs maxUses nowMs =>
    exact iff_of_true (h.cluster.congr rfl rfl rfl) trivial
  | join params nowMs => exact clusterNodeJoin_sound_iff h.cluster params nowMs
  | remove nodeId force nowMs =>
    rw [Roster.step, h.update_iff, ← clusterNodeRemove_sound_iff h.cluster nodeId force localRpcUrl]
    simp only [map_snd_eq_ok]
    exact ⟨fun hsound result hresult => hsound _ ⟨result, hresult, rfl⟩,
      fun hsound c ⟨result, hresult, heq⟩ => heq ▸ hsound result hresult⟩
  | leave nodeId nowMs =>
    refine iff_of_true ((h.update_iff _).mpr fun c hc => ?_) trivial
    obtain ⟨result, hresult, rfl⟩ := map_snd_eq_ok.mp hc
    exact clusterNodeLeave_sound h.cluster hresult
  | promote nodeId shardId force nowMs timeoutMs =>
    refine iff_of_true ((h.update_iff _).mpr fun c hc => ?_) trivial
    obtain ⟨result, hresult, rfl⟩ := map_snd_eq_ok.mp hc
    exact clusterReplicaPromote_sound h.cluster hresult
  | announce nodeId epoch shardId nowMs =>
    exact iff_of_true ((h.update_iff _).mpr fun c hc => clusterLeaderAnnounce_sound h.cluster hc)
      trivial
  | requestVote candidate term appliedOps last shardId =>
    refine iff_of_true ((h.update_iff _).mpr fun c hc => ?_) trivial
    obtain ⟨⟨granted, voted⟩, hresult, rfl⟩ := map_snd_eq_ok.mp hc
    rcases clusterRequestVote_ok hresult with ⟨-, -, -, rfl⟩ | ⟨-, rfl⟩
    · exact h.cluster.congr (recordVote_primaryNodeId _ _ _ _) (recordVote_nodes _ _ _ _)
        (recordVote_shards _ _ _ _)
    · exact h.cluster
  | elected e votes =>
    rw [← promoteElected_sound_iff h.cluster, Roster.step]
    cases hwin : promoteElected r.cluster e votes with
    | none => simp [h.cluster]
    | some c => simp
  | heartbeat hb nowMs =>
    refine iff_of_true ((h.update_iff _).mpr fun c hc => ?_) trivial
    obtain rfl := clusterNodeHeartbeat_ok hc
    refine ⟨h.cluster.seated.modify ?_ ?_ _, h.cluster.shards⟩
    · exact fun _ => rfl
    · exact fun _ => rfl
  | createShard params generated =>
    exact iff_of_true (clusterShardCreate_sound h.cluster params generated) trivial
  | previewMove shardId toNodeId =>
    refine iff_of_true ?_ trivial
    simp only [Roster.step]
    split <;> exact h.cluster
  | commitMove preview =>
    refine iff_of_true ?_ trivial
    simp only [Roster.step]
    split_ifs with hmem
    · exact (h.update_iff _).mpr fun c hc => commitShardMove_sound h.cluster (h.moves _ hmem) hc
    · exact h.cluster
  | restart nowMs => exact iff_of_true (loadClusterState_sound h.cluster localRpcUrl nowMs) trivial

theorem update_moves (r : Roster) (result : Except RpcError ClusterStateModel) :
    (r.update result).moves = r.moves := by
  cases result <;> rfl

/-- The shard moves under way stay sound in any case. -/
theorem Roster.Sound.step_moves {r : Roster} (h : r.Sound) (op : MemberOp) :
    ∀ preview ∈ (r.step localRpcUrl op).moves, preview.Sound := by
  cases op with
  | previewMove shardId toNodeId =>
    simp only [Roster.step]
    split
    · rename_i preview hpreview
      intro p hp
      rcases List.mem_cons.mp hp with rfl | hp
      · exact previewShardMove_sound hpreview
      · exact h.moves p hp
    · exact h.moves
  | elected e votes =>
    simp only [Roster.step]
    split <;> exact h.moves
  | commitMove preview =>
    simp only [Roster.step]
    split_ifs
    · rw [update_moves]
      exact h.moves
    · exact h.moves
  | createToken | join | createShard | restart => exact h.moves
  | remove | leave | promote | announce | requestVote | heartbeat =>
    rw [Roster.step, update_moves]
    exact h.moves

/-- From a sound state, every state of a run is sound if and only if every operation is orderly. -/
theorem Roster.Sound.run_iff {r : Roster} (h : r.Sound) (ops : List MemberOp) :
    (∀ before after, ops = before ++ after → Cluster.Sound (r.run localRpcUrl before).cluster) ↔
      OrderlyRun localRpcUrl r ops := by
  induction ops generalizing r with
  | nil =>
    refine iff_of_true ?_ trivial
    intro before after hsplit
    obtain ⟨rfl, rfl⟩ := List.append_eq_nil_iff.mp hsplit.symm
    exact h.cluster
  | cons op ops ih =>
    constructor
    · intro hsound
      have hfirst : Cluster.Sound (r.step localRpcUrl op).cluster := hsound [op] ops rfl
      have hnext : (r.step localRpcUrl op).Sound := ⟨hfirst, h.step_moves op⟩
      refine ⟨(h.step_iff op).mp hfirst, (ih hnext).mp ?_⟩
      rintro before after rfl
      exact hsound (op :: before) after rfl
    · rintro ⟨horderly, hrest⟩ before after hsplit
      have hnext : (r.step localRpcUrl op).Sound := ⟨(h.step_iff op).mpr horderly, h.step_moves op⟩
      cases before with
      | nil => exact h.cluster
      | cons x before =>
        obtain ⟨rfl, rfl⟩ := List.cons.inj hsplit
        exact (ih hnext).mpr hrest before after rfl

end Runs

/-- The membership invariant, for every run of a node from its bootstrap: it holds in every state
of the run if and only if every operation is orderly where it is made. -/
theorem membership_invariant (localNodeId : NodeId) (localRpcUrl : String) (nowMs : ℕ)
    (ops : List MemberOp) :
    (∀ before after, ops = before ++ after →
      Sound ((Roster.start localNodeId localRpcUrl nowMs).run localRpcUrl before).cluster) ↔
        OrderlyRun localRpcUrl (.start localNodeId localRpcUrl nowMs) ops :=
  (bootstrap_sound localNodeId localRpcUrl nowMs).run_iff ops

section Sample

/-- `b` joins `a` and is promoted, and then removed. -/
def sampleRemoval : List MemberOp := [
  .createToken "join_1000_0" none none none 1000,
  .join ⟨"join_1000_0", "b", "http://b:8080", none⟩ 2000,
  .promote "b" none none 3000 15000,
  .remove "b" none 4000]

/-- After the removal of the primary `b` the node `a` is the primary with the role of a replica. -/
theorem removal_unsound : ¬ ∀ before after, sampleRemoval = before ++ after →
    Sound ((Roster.start "a" "http://a:8080" 0).run "http://a:8080" before).cluster := by
  intro h
  have hseated := (h sampleRemoval [] rfl).seated
  revert hseated
  decide

end Sample

end SkeinDB.Cluster
