import SkeinDB.Cluster.Safety
import SkeinDB.Cluster.Replica

/-!
# Term fencing

A node adopts an epoch when it votes in it, runs for it, wins it or hears of its leader. Epochs
only move forward. Whether a replica applies an operation is decided from its last applied
position alone, so an operation of an older term than the adopted epoch is refused only when it
does not continue that position.
-/
namespace SkeinDB.Cluster
open Consensus

/-- The epochs a node stands at: that of the leader it knows and that of its last vote. -/
def Adopted (c : ClusterStateModel) (epoch : ℕ) : Prop :=
  c.leadershipEpoch = epoch ∨ c.votedEpoch = epoch

/-- The newest epoch a node has adopted. -/
def adoptedEpoch (c : ClusterStateModel) : ℕ := max c.leadershipEpoch c.votedEpoch

/-- An action applies a replicated operation to the engine of `n`. -/
def Applies (s : System) (a : Action) (n : NodeId) (op : ReplicationLogEntry) : Prop :=
  (∃ nowMs, a = .deliver (.replicate n op) nowMs) ∧ ∃ s', s.act a = some s' ∧
    (s'.servers n).engine = (s.servers n).engine ++ [op]

/-- Once a node has adopted an epoch, it applies no operation of an older term. -/
def TermFenced (s₀ : System) (as : List Action) : Prop :=
  ∀ before between a after, as = before ++ (between ++ a :: after) → ∀ s₁ s₂,
    s₀.run before = some s₁ → s₁.run between = some s₂ → ∀ n epoch op,
      Adopted (s₁.servers n).cluster epoch → Applies s₂ a n op → epoch ≤ op.position.term

/-- A delivered operation is of the newest adopted epoch or a later term, or it does not continue
the last applied position: it is of an older term than that position, or of the same term and not
the next one. -/
def KeepsFence (s : System) : Action → Prop
  | .deliver (.replicate n op) _ =>
    let c := (s.servers n).cluster
    let last := c.replication.lastApplied
    adoptedEpoch c ≤ op.position.term ∨ op.position.term < last.term ∨
      (op.position.term = last.term ∧ op.position.seq ≠ last.seq + 1)
  | _ => True

instance (s : System) : (a : Action) → Decidable (KeepsFence s a)
  | .deliver (.replicate _ _) _ => inferInstanceAs (Decidable (_ ∨ _ ∨ _))
  | .deliver (.requestVote ..) _ | .deliver (.granted ..) _ | .deliver (.leaderAnnounce ..) _
  | .deliver (.heartbeat ..) _ | .write .. | .heartbeat _ | .startElection ..
  | .startShardElection .. | .finishElection .. | .catchUp _ => isTrue trivial

def FenceRun (s : System) : List Action → Prop
  | [] => True
  | a :: as => KeepsFence s a ∧ ∀ s' ∈ s.act a, FenceRun s' as

instance decidableFenceRun (s : System) : (as : List Action) → Decidable (FenceRun s as)
  | [] => isTrue trivial
  | a :: as =>
    match h : s.act a with
    | none => decidable_of_iff (KeepsFence s a) (by simp [FenceRun, h])
    | some s' =>
      have := decidableFenceRun s' as
      decidable_of_iff (KeepsFence s a ∧ FenceRun s' as) (by simp [FenceRun, h])

section Advance

/-- Neither epoch goes back, and another primary comes with a newer epoch. -/
structure Advances (c c' : ClusterStateModel) : Prop where
  leadership : c.leadershipEpoch ≤ c'.leadershipEpoch
  voted : c.votedEpoch ≤ c'.votedEpoch
  primary : c'.primaryNodeId ≠ c.primaryNodeId → c.leadershipEpoch < c'.leadershipEpoch

variable {c c' c'' : ClusterStateModel}

theorem Advances.refl (c : ClusterStateModel) : Advances c c :=
  ⟨le_rfl, le_rfl, fun h => absurd rfl h⟩

/-- The leadership stays as it is. -/
theorem Advances.keep (hprimary : c'.primaryNodeId = c.primaryNodeId)
    (hepoch : c'.leadershipEpoch = c.leadershipEpoch) (hvoted : c.votedEpoch ≤ c'.votedEpoch) :
    Advances c c' :=
  ⟨hepoch.ge, hvoted, fun h => absurd hprimary h⟩

/-- A leadership of a newer epoch. -/
theorem Advances.lead (hepoch : c.leadershipEpoch < c'.leadershipEpoch)
    (hvoted : c'.votedEpoch = c.votedEpoch) : Advances c c' :=
  ⟨hepoch.le, hvoted.ge, fun _ => hepoch⟩

theorem Advances.trans (h : Advances c c') (h' : Advances c' c'') : Advances c c'' where
  leadership := h.leadership.trans h'.leadership
  voted := h.voted.trans h'.voted
  primary := by
    intro hne
    by_cases hfirst : c'.primaryNodeId = c.primaryNodeId
    · exact h.leadership.trans_lt (h'.primary (hfirst ▸ hne))
    · exact (h.primary hfirst).trans_le h'.leadership

theorem Advances.adoptedEpoch_le (h : Advances c c') : adoptedEpoch c ≤ adoptedEpoch c' :=
  max_le_max h.leadership h.voted

theorem Adopted.le {epoch : ℕ} (h : Adopted c epoch) : epoch ≤ adoptedEpoch c := by
  rcases h with rfl | rfl
  · exact le_max_left _ _
  · exact le_max_right _ _

theorem adopted_adoptedEpoch (c : ClusterStateModel) : Adopted c (adoptedEpoch c) := by
  rcases le_total c.leadershipEpoch c.votedEpoch with h | h
  · exact Or.inr (max_eq_right h).symm
  · exact Or.inl (max_eq_left h).symm

theorem recordVote_advances {race : Option ShardId} {term : ℕ} {candidate : NodeId}
    (h : (lastVote c race).1 ≤ term) : Advances c (recordVote c race term candidate) := by
  cases race with
  | none => exact .keep rfl rfl h
  | some id => exact .keep rfl rfl le_rfl

theorem clusterRequestVote_advances {candidate : NodeId} {term ops : ℕ} {last : Position}
    {race : Option ShardId} {granted : Bool}
    (h : clusterRequestVote c candidate term ops last race = .ok (granted, c')) :
    Advances c c' := by
  rcases clusterRequestVote_ok h with ⟨-, -, hlast | hlast, rfl⟩ | ⟨-, rfl⟩
  · exact recordVote_advances hlast.le
  · exact recordVote_advances (by rw [hlast])
  · exact Advances.refl c'

theorem clusterLeaderAnnounce_advances {nodeId : NodeId} {epoch nowMs : ℕ}
    {race : Option ShardId} (h : clusterLeaderAnnounce c nodeId epoch race nowMs = .ok c') :
    Advances c c' := by
  rcases clusterLeaderAnnounce_ok h with rfl | ⟨-, hnew, rfl⟩ | ⟨id, -, rfl⟩
  · exact Advances.refl c'
  · exact .lead hnew rfl
  · exact .keep rfl rfl le_rfl

theorem promoteElected_advances {e : Election} {votes : ℕ}
    (h : promoteElected c e votes = some c') : Advances c c' := by
  cases hrace : e.shardId with
  | none =>
    obtain ⟨hnew, rfl⟩ := promoteElected_cluster hrace h
    exact .lead hnew rfl
  | some id =>
    obtain rfl := promoteElected_shard hrace h
    exact .keep rfl rfl le_rfl

/-- An election starts with the node's own vote in a later term. -/
theorem Started.advances {e : Election} (h : Started c c' e) : Advances c c' := by
  rw [h.voted]
  exact recordVote_advances h.term.le

end Advance

section Steps
variable {s s' : System}

theorem setServer_advances {n : NodeId} {st : AppState}
    (h : Advances (s.servers n).cluster st.cluster) (m : NodeId) :
    Advances (s.servers m).cluster ((s.setServer n st).servers m).cluster := by
  by_cases hm : m = n
  · subst hm
    simpa [System.setServer] using h
  · simpa [System.setServer, hm] using Advances.refl (s.servers m).cluster

theorem setCluster_advances {n : NodeId} {c : ClusterStateModel}
    (h : Advances (s.servers n).cluster c) (m : NodeId) :
    Advances (s.servers m).cluster ((s.setCluster n c).servers m).cluster :=
  setServer_advances h m

theorem beginElection_advances {n : NodeId} {start : Option (Election × ClusterStateModel)}
    (h : ∀ e c, start = some (e, c) → Advances (s.servers n).cluster c)
    (hs : s.beginElection n start = some s') (m : NodeId) :
    Advances (s.servers m).cluster (s'.servers m).cluster := by
  cases start with
  | none => cases hs
  | some found =>
    obtain ⟨e, c⟩ := found
    cases hs
    exact setCluster_advances (h e c rfl) m

theorem handleReplicated_advances (st : AppState) (op : ReplicationLogEntry) :
    Advances st.cluster (handleReplicated st op).cluster := by
  unfold handleReplicated
  split
  · exact .keep rfl rfl le_rfl
  · exact Advances.refl _
  · exact Advances.refl _

theorem receive_advances {m : Message} {nowMs : ℕ} (hs : s.receive nowMs m = some s')
    (n : NodeId) : Advances (s.servers n).cluster (s'.servers n).cluster := by
  cases m with
  | requestVote dst candidate term ops last race =>
    simp only [System.receive] at hs
    split at hs
    · rename_i c hvote
      cases hs
      exact setCluster_advances (clusterRequestVote_advances hvote) n
    · rename_i c hvote
      cases hs
      exact setCluster_advances (clusterRequestVote_advances hvote) n
    · cases hs
      exact Advances.refl _
  | granted => cases hs
  | leaderAnnounce dst nodeId epoch race =>
    simp only [System.receive] at hs
    split at hs
    · rename_i c hannounce
      cases hs
      exact setCluster_advances (clusterLeaderAnnounce_advances hannounce) n
    · cases hs
      exact Advances.refl _
  | replicate dst op =>
    cases hs
    exact setServer_advances (handleReplicated_advances _ op) n
  | heartbeat dst hb =>
    simp only [System.receive] at hs
    split at hs
    · rename_i c hbeat
      cases hs
      obtain rfl := clusterNodeHeartbeat_ok hbeat
      have hrecord : Advances (s.servers dst).cluster
          (recordHeartbeat (s.servers dst).cluster hb nowMs) := .keep rfl rfl le_rfl
      exact setCluster_advances hrecord n
    · cases hs
      exact Advances.refl _

/-- No action takes a node back to an older epoch. -/
theorem act_advances {a : Action} (hs : s.act a = some s') (n : NodeId) :
    Advances (s.servers n).cluster (s'.servers n).cluster := by
  cases a with
  | startElection k nowMs timeoutMs =>
    simp only [System.act] at hs
    split_ifs at hs
    exact beginElection_advances
      (fun _ _ hstart => (startClusterElection_started hstart).2.2.1.advances) hs n
  | startShardElection k shardId nowMs timeoutMs =>
    simp only [System.act] at hs
    split_ifs at hs
    exact beginElection_advances
      (fun _ _ hstart => (startShardElection_started hstart).2.1.advances) hs n
  | finishElection e heard =>
    simp only [System.act, System.finish] at hs
    split_ifs at hs
    split at hs
    · cases hs
    · rename_i c hpromote
      cases hs
      exact setCluster_advances (promoteElected_advances hpromote) n
  | deliver m nowMs =>
    simp only [System.act] at hs
    split_ifs at hs
    exact receive_advances hs n
  | write k method params autoFailover nowMs timeoutMs =>
    simp only [System.act, System.clientWrite] at hs
    split_ifs at hs
    split at hs
    · cases hs
    · split at hs
      · cases hs
      · rename_i st op hrecord
        cases hs
        obtain ⟨-, rfl, rfl⟩ := recordReplicationOp_some hrecord
        have hwrite : Advances (s.servers k).cluster (appendOp (s.servers k)
            (nextOp (s.servers k) method params)).cluster := .keep rfl rfl le_rfl
        exact setServer_advances hwrite n
  | heartbeat k =>
    simp only [System.act] at hs
    split_ifs at hs
    cases hs
    have hround : Advances (s.servers k).cluster
        (runClusterHeartbeatOnce (s.servers k).cluster).1 := by
      unfold runClusterHeartbeatOnce
      dsimp only
      split_ifs
      · exact .keep rfl rfl le_rfl
      · exact Advances.refl _
    have hset := setCluster_advances hround n
    simp only [System.beat, System.reportCommit, System.send]
    split_ifs <;> exact hset
  | catchUp k =>
    simp only [System.act, System.catchUp] at hs
    split_ifs at hs
    cases hs
    exact Advances.refl _

theorem run_advances {as : List Action} (hs : s.run as = some s') (n : NodeId) :
    Advances (s.servers n).cluster (s'.servers n).cluster := by
  induction as generalizing s with
  | nil =>
    cases hs
    exact Advances.refl _
  | cons a as ih =>
    unfold System.run at hs
    split at hs
    · cases hs
    · rename_i t hact
      exact (act_advances hact n).trans (ih hs)

end Steps

section Fence
variable {s s' : System} {a : Action} {n : NodeId} {op : ReplicationLogEntry}

/-- An operation is applied exactly when it continues the last applied position. -/
theorem applies_iff {nowMs : ℕ} (hs : s.act (.deliver (.replicate n op) nowMs) = some s') :
    Applies s (.deliver (.replicate n op) nowMs) n op ↔
      decideReplicationApply (s.servers n).cluster.replication.lastApplied op.position = .apply := by
  have hserver : s'.servers n = handleReplicated (s.servers n) op := by
    simp only [System.act] at hs
    split_ifs at hs
    cases hs
    simp [System.setServer]
  constructor
  · rintro ⟨-, t, ht, hengine⟩
    obtain rfl : s' = t := Option.some.inj (hs.symm.trans ht)
    by_contra hskip
    rw [hserver, handleReplicated_of_skip hskip] at hengine
    simp at hengine
  · intro happly
    refine ⟨⟨nowMs, rfl⟩, s', hs, ?_⟩
    rw [hserver, handleReplicated_of_apply happly]

/-- One delivery keeps the fence exactly when it applies nothing older than the adopted epoch. -/
theorem keepsFence_iff (hs : s.act a = some s') :
    KeepsFence s a ↔ ∀ n op, Applies s a n op →
      adoptedEpoch (s.servers n).cluster ≤ op.position.term := by
  constructor
  · rintro hkeeps n op happlies
    obtain ⟨nowMs, rfl⟩ := happlies.1
    have hcontinues := decideReplicationApply_apply.mp ((applies_iff hs).mp happlies)
    rcases hkeeps with hnew | hold | ⟨hsame, hseq⟩
    · exact hnew
    · omega
    · omega
  · intro h
    cases a with
    | deliver m nowMs =>
      cases m with
      | replicate n op =>
        by_cases happly : decideReplicationApply
          (s.servers n).cluster.replication.lastApplied op.position = .apply
        · exact Or.inl (h n op ((applies_iff hs).mpr happly))
        · rw [decideReplicationApply_apply] at happly
          simp only [KeepsFence]
          omega
      | requestVote | granted | leaderAnnounce | heartbeat => trivial
    | startElection | startShardElection | finishElection | write | heartbeat | catchUp => trivial

theorem run_append {before after : List Action} (hs : s.run before = some s') :
    s.run (before ++ after) = s'.run after := by
  induction before generalizing s with
  | nil =>
    cases hs
    rfl
  | cons a before ih =>
    rw [System.run] at hs
    rw [List.cons_append, System.run]
    split at hs
    · cases hs
    · exact ih hs

/-- The condition of a run, at each of its actions. -/
theorem fenceRun_iff {as : List Action} (hs : s.run as = some s') :
    FenceRun s as ↔ ∀ before a after, as = before ++ a :: after → ∀ t,
      s.run before = some t → KeepsFence t a := by
  induction as generalizing s with
  | nil => simp [FenceRun]
  | cons a as ih =>
    unfold System.run at hs
    split at hs
    · cases hs
    · rename_i t hact
      have hmem : ∀ u, u ∈ s.act a ↔ u = t := by simp [hact, eq_comm]
      simp only [FenceRun, hmem, forall_eq, ih hs]
      constructor
      · rintro ⟨hfirst, hrest⟩ before b after hsplit u hu
        cases before with
        | nil =>
          obtain ⟨rfl, rfl⟩ := List.cons.inj hsplit
          cases hu
          exact hfirst
        | cons x before =>
          obtain ⟨rfl, rfl⟩ := List.cons.inj hsplit
          rw [System.run, hact] at hu
          exact hrest before b after rfl u hu
      · intro h
        refine ⟨h [] a as rfl s rfl, ?_⟩
        rintro before b after rfl u hu
        refine h (a :: before) b after rfl u ?_
        rw [System.run, hact]
        exact hu

end Fence

/-- In every run: a node that has adopted an epoch applies no operation of an older term, if and
only if no delivered operation of an older term continues the last applied position. -/
theorem term_fencing {s₀ s : System} {as : List Action} (hrun : s₀.run as = some s) :
    TermFenced s₀ as ↔ FenceRun s₀ as := by
  have hact : ∀ before a after, as = before ++ a :: after → ∀ t, s₀.run before = some t →
      ∃ u, t.act a = some u := by
    rintro before a after rfl t ht
    rw [run_append ht, System.run] at hrun
    split at hrun
    · cases hrun
    · rename_i u hu
      exact ⟨u, hu⟩
  rw [fenceRun_iff hrun]
  constructor
  · intro h before a after hsplit t ht
    obtain ⟨u, hu⟩ := hact before a after hsplit t ht
    rw [keepsFence_iff hu]
    intro n op happlies
    exact h before [] a after hsplit t t ht rfl n _ op (adopted_adoptedEpoch _) happlies
  · intro h before between a after hsplit s₁ s₂ hs₁ hs₂ n epoch op hadopted happlies
    have hs : s₀.run (before ++ between) = some s₂ := by rw [run_append hs₁, hs₂]
    rw [← List.append_assoc] at hsplit
    obtain ⟨u, hu⟩ := hact _ a after hsplit s₂ hs
    have hkeeps := (keepsFence_iff hu).mp (h _ a after hsplit s₂ hs) n op happlies
    exact (hadopted.le.trans (run_advances hs₂ n).adoptedEpoch_le).trans hkeeps

/-- `a` writes while `c` is elected; `b` hears of `c`, and then gets the write of `a`. -/
def sampleLateFanOut : List Action := [
  .write "a" "data.insert" "{}" true 8000 5000,
  .startElection "c" 9000 5000,
  .deliver (.requestVote "b" "c" 1 0 0 none) 9000,
  .finishElection ⟨"c", none, 1, 2, ["a", "b"], 0, 0, 9000, 5000⟩ ["b"],
  .deliver (.leaderAnnounce "b" "c" 1 none) 9000,
  .deliver (.replicate "b" (sampleOp 0 1)) 9500]

theorem sampleLateFanOut_isSome : (sampleSystem.run sampleLateFanOut).isSome := by decide

/-- The write of `c` in its term arrives before that of the old primary `a`, which is refused. -/
def sampleHandover : List Action := [
  .write "a" "data.insert" "{}" true 8000 5000,
  .startElection "c" 9000 5000,
  .deliver (.requestVote "b" "c" 1 0 0 none) 9000,
  .finishElection ⟨"c", none, 1, 2, ["a", "b"], 0, 0, 9000, 5000⟩ ["b"],
  .deliver (.leaderAnnounce "b" "c" 1 none) 9000,
  .write "c" "data.insert" "{}" false 9000 5000,
  .deliver (.replicate "b" (sampleOp 1 1)) 9500,
  .deliver (.replicate "b" (sampleOp 0 1)) 9600]

theorem sampleHandover_isSome : (sampleSystem.run sampleHandover).isSome := by decide

theorem term_fencing_sample : ∃ s, sampleSystem.run sampleHandover = some s ∧
    (s.servers "b").engine = [sampleOp 1 1] ∧ TermFenced sampleSystem sampleHandover := by
  have hrun := (Option.some_get sampleHandover_isSome).symm
  exact ⟨_, hrun, by decide, (term_fencing hrun).mpr (by decide)⟩

/-- `b` has adopted epoch 1 and applies an operation of term 0 from the old primary. -/
theorem term_not_fenced : ∃ s, sampleSystem.run sampleLateFanOut = some s ∧
    (s.servers "b").cluster.leadershipEpoch = 1 ∧ (s.servers "b").engine = [sampleOp 0 1] ∧
    ¬ TermFenced sampleSystem sampleLateFanOut := by
  have hrun := (Option.some_get sampleLateFanOut_isSome).symm
  refine ⟨_, hrun, by decide, by decide, fun h => ?_⟩
  -- at the announcement `b` adopts epoch 1, and the last action applies the write of `a`
  obtain ⟨s₁, hs₁⟩ := Option.isSome_iff_exists.mp
    (show (sampleSystem.run (sampleLateFanOut.take 5)).isSome by decide)
  have hstate : s₁ = (sampleSystem.run (sampleLateFanOut.take 5)).get (by decide) := by
    simp [hs₁]
  have happlies : Applies s₁ (.deliver (.replicate "b" (sampleOp 0 1)) 9500) "b" (sampleOp 0 1) := by
    subst hstate
    exact ⟨⟨9500, rfl⟩, _, rfl, by decide⟩
  have hadopted : Adopted (s₁.servers "b").cluster 1 := by
    subst hstate
    exact Or.inl (by decide)
  have hfenced := h _ [] _ [] rfl s₁ s₁ hs₁ rfl "b" 1 (sampleOp 0 1) hadopted happlies
  revert hfenced
  decide

end SkeinDB.Cluster
