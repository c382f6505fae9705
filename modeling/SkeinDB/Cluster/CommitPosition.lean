import SkeinDB.Cluster.Replication
import SkeinDB.Consensus.OrderStatistic

/-!
# The commit position

The position that a quorum of the nodes has reached: the greatest one for the positions at hand,
whatever their order, and one that never falls while the nodes report their progress.
-/
namespace SkeinDB.Cluster
open SkeinDB.Consensus

theorem isGreatest_replicationCommitPosition {positions : List Position} {quorum : ℕ}
    (hpos : 0 < quorum) (hquorum : quorum ≤ positions.length) :
    IsGreatest (reachedBy quorum positions) (replicationCommitPosition positions quorum) := by
  rw [replicationCommitPosition, if_neg (by omega)]
  exact isGreatest_getD_insertionSort hpos hquorum 0

theorem replicationCommitPosition_eq_zero {positions : List Position} {quorum : ℕ}
    (h : quorum = 0 ∨ positions.length < quorum) :
    replicationCommitPosition positions quorum = 0 := if_pos h

/-- Raising positions does not lower the commit position, whatever the quorum. -/
theorem replicationCommitPosition_mono {positions raised : List Position} {quorum : ℕ}
    (h : List.Forall₂ (· ≤ ·) positions raised) :
    replicationCommitPosition positions quorum ≤ replicationCommitPosition raised quorum := by
  have hlen := h.length_eq
  by_cases hnone : quorum = 0 ∨ positions.length < quorum
  · rw [replicationCommitPosition_eq_zero hnone]
    exact Position.zero_le _
  · push Not at hnone
    have hpos := Nat.pos_of_ne_zero hnone.1
    have hreached := (isGreatest_replicationCommitPosition hpos hnone.2).1
    exact (isGreatest_replicationCommitPosition hpos (hlen ▸ hnone.2)).2
      (reachedBy_mono h hreached)

section Heartbeat

theorem applied_le_heardFrom (hb : Heartbeat) (nowMs : ℕ) (node : ClusterNode) :
    node.applied ≤ (heardFrom hb nowMs node).applied := by
  dsimp only [heardFrom]
  split_ifs with hlt
  · exact hlt.le
  · exact le_rfl

theorem modifyNode_forall₂ {r : ClusterNode → ClusterNode → Prop} (hrefl : ∀ n, r n n)
    {f : ClusterNode → ClusterNode} (hf : ∀ n, r n (f n)) (nodeId : NodeId)
    (nodes : List ClusterNode) : List.Forall₂ r nodes (modifyNode f nodeId nodes) := by
  induction nodes with
  | nil => exact .nil
  | cons node nodes ih =>
    unfold modifyNode
    split_ifs
    · exact .cons (hf node) (List.forall₂_same.mpr fun n _ => hrefl n)
    · exact .cons (hrefl node) ih

/-- A heartbeat moves the position of its sender forward only, so the commit position that the
receiver computes does not fall. -/
theorem clusterCommitPosition_le_recordHeartbeat (c : ClusterStateModel) (hb : Heartbeat)
    (nowMs : ℕ) : clusterCommitPosition c ≤ clusterCommitPosition (recordHeartbeat c hb nowMs) := by
  have hrows : List.Forall₂ (fun n m : ClusterNode => n.nodeId = m.nodeId ∧ n.applied ≤ m.applied)
      c.nodes (recordHeartbeat c hb nowMs).nodes :=
    modifyNode_forall₂ (fun n => ⟨rfl, le_rfl⟩)
      (fun n => ⟨rfl, applied_le_heardFrom hb nowMs n⟩) hb.nodeId c.nodes
  unfold clusterCommitPosition
  rw [hrows.length_eq]
  refine replicationCommitPosition_mono ?_
  rw [List.forall₂_map_left_iff, List.forall₂_map_right_iff]
  refine hrows.imp fun n m hnm => ?_
  rw [← hnm.1]
  change (if n.nodeId = c.localNodeId then localPosition c else n.applied) ≤
    if n.nodeId = c.localNodeId then localPosition c else m.applied
  split_ifs
  · exact le_rfl
  · exact hnm.2

end Heartbeat

/-- For every quorum within the number of nodes the commit position is the greatest position that
a quorum of them has reached. Raising positions never lowers it, nor does a heartbeat that a node
records. -/
theorem commit_position :
    (∀ (positions : List Position) (quorum : ℕ), 1 ≤ quorum → quorum ≤ positions.length →
      IsGreatest {p | quorum ≤ positions.countP (p ≤ ·)}
        (replicationCommitPosition positions quorum)) ∧
      (∀ (positions raised : List Position) (quorum : ℕ),
        List.Forall₂ (· ≤ ·) positions raised →
        replicationCommitPosition positions quorum ≤ replicationCommitPosition raised quorum) ∧
      ∀ (c c' : ClusterStateModel) (hb : Heartbeat) (nowMs : ℕ),
        clusterNodeHeartbeat c hb nowMs = .ok c' →
        clusterCommitPosition c ≤ clusterCommitPosition c' := by
  refine ⟨fun positions quorum hpos hquorum => isGreatest_replicationCommitPosition hpos hquorum,
    fun positions raised quorum h => replicationCommitPosition_mono h, ?_⟩
  intro c c' hb nowMs h
  rw [clusterNodeHeartbeat_ok h]
  exact clusterCommitPosition_le_recordHeartbeat c hb nowMs

theorem commit_position_sample :
    replicationCommitPosition [⟨1, 20⟩, ⟨1, 9⟩, ⟨2, 1⟩] 2 = ⟨1, 20⟩ ∧
      IsGreatest {p : Position | 2 ≤ [⟨1, 20⟩, ⟨1, 9⟩, ⟨2, 1⟩].countP (p ≤ ·)} ⟨1, 20⟩ ∧
      replicationCommitPosition [⟨1, 20⟩, ⟨1, 9⟩, ⟨2, 1⟩] 2 ≤
        replicationCommitPosition [⟨1, 20⟩, ⟨2, 2⟩, ⟨2, 1⟩] 2 := by
  refine ⟨by decide, commit_position.1 [⟨1, 20⟩, ⟨1, 9⟩, ⟨2, 1⟩] 2 (by decide) (by decide),
    commit_position.2.1 _ _ 2 ?_⟩
  exact .cons le_rfl (.cons (by decide) (.cons le_rfl .nil))

end SkeinDB.Cluster
