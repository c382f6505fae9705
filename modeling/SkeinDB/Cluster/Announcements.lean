import SkeinDB.Cluster.Replication
import SkeinDB.Consensus.Newest

/-!
# Leader announcements in any order

A node adopts the announced leadership of a member if its epoch is newer than the one it knows. The
leadership it ends with is the newest of those it has heard and of its own, in whatever order and
however often they come. The roles in its member table agree too, as long as the nodes that were
primary only in between were replicas before: an announcement that is overtaken makes its node a
replica if it is heard in time, and leaves its role alone if it comes late.
-/
namespace SkeinDB.Cluster
open Consensus

structure Announcement where
  nodeId : NodeId
  epoch : ℕ
  shardId : Option ShardId
deriving DecidableEq, Repr

/-- The state after an announcement that is heard at a time; a rejected one changes nothing. -/
def hear (c : ClusterStateModel) (a : Announcement × ℕ) : ClusterStateModel :=
  match clusterLeaderAnnounce c a.1.nodeId a.1.epoch a.1.shardId a.2 with
  | .ok c' => c'
  | .error _ => c

def hearAll (c : ClusterStateModel) (as : List (Announcement × ℕ)) : ClusterStateModel :=
  as.foldl hear c

def nodeIds (c : ClusterStateModel) : List NodeId := c.nodes.map (·.nodeId)

def nodeRoles (c : ClusterStateModel) : List (NodeId × NodeRole) :=
  c.nodes.map fun node => (node.nodeId, node.role)

/-- The epoch of the cluster and its primary. -/
def clusterLeadership (c : ClusterStateModel) : ℕ × NodeId := (c.leadershipEpoch, c.primaryNodeId)

/-- The leadership of the cluster that an announcement claims for a member. -/
def Announcement.claim (members : List NodeId) (a : Announcement) : Option (ℕ × NodeId) :=
  if a.shardId = none ∧ a.nodeId ∈ members then some (a.epoch, a.nodeId) else none

def claims (members : List NodeId) (as : List (Announcement × ℕ)) : List (ℕ × NodeId) :=
  as.filterMap fun a => a.1.claim members

section Hearing
variable {c : ClusterStateModel} {a : Announcement × ℕ} {as : List (Announcement × ℕ)}

theorem hear_of_no_claim (h : a.1.claim (nodeIds c) = none) :
    nodeIds (hear c a) = nodeIds c ∧ clusterLeadership (hear c a) = clusterLeadership c ∧
      nodeRoles (hear c a) = nodeRoles c := by
  rcases hannounce : clusterLeaderAnnounce c a.1.nodeId a.1.epoch a.1.shardId a.2 with e | c'
  · have hhear : hear c a = c := by rw [hear, hannounce]
    rw [hhear]
    exact ⟨rfl, rfl, rfl⟩
  · have hhear : hear c a = c' := by rw [hear, hannounce]
    rw [hhear]
    rcases clusterLeaderAnnounce_ok hannounce with rfl | ⟨hshard, -, rfl⟩ | ⟨id, -, rfl⟩
    · exact ⟨rfl, rfl, rfl⟩
    · have hmember : a.1.nodeId ∉ c.nodes.map (·.nodeId) := by
        intro hmem
        rw [Announcement.claim, if_pos ⟨hshard, hmem⟩] at h
        cases h
      simp only [clusterLeaderAnnounce, if_pos hmember, reduceCtorEq] at hannounce
    · exact ⟨rfl, rfl, rfl⟩

/-- What happens to the role of a node when `nodeId` takes over from `oldPrimary`. -/
def demoted (id nodeId oldPrimary : NodeId) (role : NodeRole) : NodeRole :=
  if id = nodeId then .primary else if id = oldPrimary then .replica else role

theorem promoteNode_role (nodeId oldPrimary : NodeId) (nowMs : ℕ) (node : ClusterNode) :
    (promoteNode nodeId oldPrimary nowMs node).role =
      demoted node.nodeId nodeId oldPrimary node.role := by
  unfold promoteNode demoted
  split_ifs <;> rfl

theorem hear_of_claim {claim : ℕ × NodeId} (h : a.1.claim (nodeIds c) = some claim) :
    nodeIds (hear c a) = nodeIds c ∧
    clusterLeadership (hear c a) = newer Prod.fst (clusterLeadership c) claim ∧
    nodeRoles (hear c a) = if (clusterLeadership c).1 < claim.1 then
      (nodeRoles c).map fun node => (node.1, demoted node.1 claim.2 (clusterLeadership c).2 node.2)
      else nodeRoles c := by
  rw [Announcement.claim, Option.ite_none_right_eq_some] at h
  obtain ⟨⟨hshard, hmem⟩, hclaim⟩ := h
  cases hclaim
  have hknown : ¬ a.1.nodeId ∉ c.nodes.map (·.nodeId) := not_not.mpr hmem
  by_cases hnew : (clusterLeadership c).1 < a.1.epoch
  · have hepoch : c.leadershipEpoch < a.1.epoch := hnew
    have hhear : hear c a = applyWholeClusterPromotion c a.1.nodeId a.1.epoch a.2 := by
      simp only [hear, clusterLeaderAnnounce, if_neg hknown, hshard, if_pos hepoch]
    rw [hhear, if_pos hnew]
    refine ⟨?_, (newer_of_lt hnew).symm, ?_⟩
    · simp [nodeIds, applyWholeClusterPromotion, Function.comp_def]
    · simp only [nodeRoles, applyWholeClusterPromotion, List.map_map, Function.comp_def,
        promoteNode_nodeId]
      refine List.map_congr_left ?_
      intro node _
      rw [promoteNode_role]
      rfl
  · have hepoch : ¬ c.leadershipEpoch < a.1.epoch := hnew
    have hhear : hear c a = c := by
      simp only [hear, clusterLeaderAnnounce, if_neg hknown, hshard, if_neg hepoch]
    rw [hhear, if_neg hnew]
    exact ⟨rfl, (newer_of_le (not_lt.mp hnew)).symm, rfl⟩

theorem claims_cons (members : List NodeId) (a : Announcement × ℕ)
    (as : List (Announcement × ℕ)) :
    claims members (a :: as) = (a.1.claim members).toList ++ claims members as := by
  rcases hclaim : a.1.claim members with _ | claim <;> simp [claims, hclaim]

theorem hearAll_cons (c : ClusterStateModel) (a : Announcement × ℕ)
    (as : List (Announcement × ℕ)) : hearAll c (a :: as) = hearAll (hear c a) as := rfl

/-- The cluster leadership is a register that keeps the newest claim. -/
theorem hearAll_leadership (c : ClusterStateModel) (as : List (Announcement × ℕ)) :
    clusterLeadership (hearAll c as) =
      newest Prod.fst (clusterLeadership c) (claims (nodeIds c) as) := by
  induction as generalizing c with
  | nil => rfl
  | cons a as ih =>
    rw [hearAll_cons, ih, claims_cons]
    rcases hclaim : a.1.claim (nodeIds c) with _ | claim
    · obtain ⟨hids, hleader, -⟩ := hear_of_no_claim hclaim
      rw [hids, hleader]
      rfl
    · obtain ⟨hids, hleader, -⟩ := hear_of_claim hclaim
      rw [hids, hleader]
      rfl

/-- The role of a node after a series of claims. -/
def roleAfter (id : NodeId) : ℕ × NodeId → NodeRole → List (ℕ × NodeId) → NodeRole
  | _, role, [] => role
  | held, role, claim :: rest =>
    if held.1 < claim.1 then roleAfter id claim (demoted id claim.2 held.2 role) rest
    else roleAfter id held role rest

theorem hearAll_roles (c : ClusterStateModel) (as : List (Announcement × ℕ)) :
    nodeRoles (hearAll c as) = (nodeRoles c).map fun node =>
      (node.1, roleAfter node.1 (clusterLeadership c) node.2 (claims (nodeIds c) as)) := by
  induction as generalizing c with
  | nil => simp [hearAll, claims, roleAfter]
  | cons a as ih =>
    rw [hearAll_cons, ih, claims_cons]
    rcases hclaim : a.1.claim (nodeIds c) with _ | claim
    · obtain ⟨hids, hleader, hroles⟩ := hear_of_no_claim hclaim
      rw [hids, hleader, hroles]
      rfl
    · obtain ⟨hids, hleader, hroles⟩ := hear_of_claim hclaim
      rw [hids, hleader, hroles, Option.toList_some, List.singleton_append]
      by_cases hnew : (clusterLeadership c).1 < claim.1
      · rw [if_pos hnew, newer_of_lt hnew, List.map_map]
        refine List.map_congr_left ?_
        intro node _
        rw [roleAfter, if_pos hnew]
        rfl
      · rw [if_neg hnew, newer_of_le (not_lt.mp hnew)]
        refine List.map_congr_left ?_
        intro node _
        rw [roleAfter, if_neg hnew]

/-- The role of a node in the end, if it was a replica before its claims, or is the primary at the
beginning or in the end, or was not claimed to be one. -/
theorem roleAfter_eq {id : NodeId} {held : ℕ × NodeId} {role : NodeRole}
    {cs : List (ℕ × NodeId)}
    (h : id = (newest Prod.fst held cs).2 ∨ id = held.2 ∨ role = .replica ∨
      ∀ claim ∈ cs, held.1 < claim.1 → claim.2 ≠ id) :
    roleAfter id held role cs = if (newest Prod.fst held cs).1 = held.1 then role
      else demoted id (newest Prod.fst held cs).2 held.2 role := by
  induction cs generalizing held role with
  | nil => simp [roleAfter]
  | cons claim cs ih =>
    by_cases hnew : held.1 < claim.1
    · rw [roleAfter, if_pos hnew, newest_cons, newer_of_lt hnew] at *
      have hle := rank_held_le Prod.fst claim cs
      have hne : (newest Prod.fst claim cs).1 ≠ held.1 := (hnew.trans_le hle).ne'
      rw [if_neg hne]
      have hnext : id = (newest Prod.fst claim cs).2 ∨ id = claim.2 ∨
          demoted id claim.2 held.2 role = .replica ∨
            ∀ claim' ∈ cs, claim.1 < claim'.1 → claim'.2 ≠ id := by
        unfold demoted
        rcases h with h | h | h | h
        · exact Or.inl h
        · by_cases hclaim : id = claim.2
          · exact Or.inr (Or.inl hclaim)
          · exact Or.inr (Or.inr (Or.inl (by rw [if_neg hclaim, if_pos h])))
        · by_cases hclaim : id = claim.2
          · exact Or.inr (Or.inl hclaim)
          · exact Or.inr (Or.inr (Or.inl (by rw [if_neg hclaim, h, ite_self])))
        · exact Or.inr (Or.inr (Or.inr fun claim' hmem hlt =>
            h claim' (List.mem_cons_of_mem _ hmem) (hnew.trans hlt)))
      rw [ih hnext]
      by_cases hlast : (newest Prod.fst claim cs).1 = claim.1
      · rw [if_pos hlast, newest_eq_held hlast]
      · rw [if_neg hlast]
        unfold demoted
        by_cases hid : id = (newest Prod.fst claim cs).2
        · rw [if_pos hid, if_pos hid]
        · rw [if_neg hid, if_neg hid]
          by_cases hclaim : id = claim.2
          · -- the node was primary in between
            rw [if_pos hclaim]
            rcases h with h | h | h | h
            · exact absurd h hid
            · rw [if_pos h]
            · rw [h, ite_self]
            · exact absurd hclaim.symm (h claim List.mem_cons_self hnew)
          · rw [if_neg hclaim, if_neg hclaim]
    · rw [roleAfter, if_neg hnew, newest_cons, newer_of_le (not_lt.mp hnew)] at *
      refine ih (h.imp_right (Or.imp_right (Or.imp_right ?_)))
      exact fun h claim' hmem => h claim' (List.mem_cons_of_mem _ hmem)

end Hearing

section Confluence
variable {c : ClusterStateModel} {as bs : List (Announcement × ℕ)}

theorem mem_claims {members : List NodeId} {claim : ℕ × NodeId} :
    claim ∈ claims members as ↔ claim.2 ∈ members ∧
      (⟨claim.2, claim.1, none⟩ : Announcement) ∈ as.map (·.1) := by
  rw [claims, List.mem_filterMap]
  constructor
  · rintro ⟨a, ha, hclaim⟩
    rw [Announcement.claim, Option.ite_none_right_eq_some] at hclaim
    obtain ⟨⟨hshard, hmem⟩, hsome⟩ := hclaim
    cases hsome
    exact ⟨hmem, List.mem_map.mpr ⟨a, ha, by rw [← hshard]⟩⟩
  · rintro ⟨hmem, hannounced⟩
    obtain ⟨a, ha, hsame⟩ := List.mem_map.mp hannounced
    exact ⟨a, ha, by rw [hsame, Announcement.claim, if_pos ⟨rfl, hmem⟩]⟩

/-- Announcements of the cluster that name one epoch name one primary. -/
def Unambiguous (as : List (Announcement × ℕ)) : Prop :=
  ∀ a ∈ as, ∀ b ∈ as, a.1.shardId = none → b.1.shardId = none → a.1.epoch = b.1.epoch →
    a.1.nodeId = b.1.nodeId

instance (as : List (Announcement × ℕ)) : Decidable (Unambiguous as) :=
  inferInstanceAs (Decidable (∀ a ∈ as, ∀ b ∈ as, _ → _ → _ → _))

/-- A member that an announcement makes primary only in between was a replica. -/
def OvertakenReplicas (c : ClusterStateModel) (as : List (Announcement × ℕ)) : Prop :=
  ∀ node ∈ nodeRoles c, node.1 = (hearAll c as).primaryNodeId ∨ node.1 = c.primaryNodeId ∨
    node.2 = .replica ∨ ∀ claim ∈ claims (nodeIds c) as, c.leadershipEpoch < claim.1 →
      claim.2 ≠ node.1

instance (c : ClusterStateModel) (as : List (Announcement × ℕ)) :
    Decidable (OvertakenReplicas c as) :=
  inferInstanceAs (Decidable (∀ node ∈ nodeRoles c, _ ∨ _ ∨ _ ∨ ∀ claim ∈ _, _ → _))

theorem claims_congr (hsame : ∀ a, a ∈ as.map (·.1) ↔ a ∈ bs.map (·.1)) (members : List NodeId)
    (claim : ℕ × NodeId) : claim ∈ claims members as ↔ claim ∈ claims members bs := by
  rw [mem_claims, mem_claims, hsame]

theorem Unambiguous.claims (h : Unambiguous as) {members : List NodeId} :
    ∀ x ∈ claims members as, ∀ y ∈ claims members as, x.1 = y.1 → x = y := by
  intro x hx y hy hepoch
  obtain ⟨-, hx⟩ := mem_claims.mp hx
  obtain ⟨-, hy⟩ := mem_claims.mp hy
  obtain ⟨a, ha, hax⟩ := List.mem_map.mp hx
  obtain ⟨b, hb, hby⟩ := List.mem_map.mp hy
  have hnode := h a ha b hb (by rw [hax]) (by rw [hby]) (by rw [hax, hby]; exact hepoch)
  rw [hax, hby] at hnode
  exact Prod.ext hepoch hnode

theorem nodeRoles_hearAll (h : OvertakenReplicas c as) :
    nodeRoles (hearAll c as) = (nodeRoles c).map fun node => (node.1,
      if (clusterLeadership (hearAll c as)).1 = c.leadershipEpoch then node.2
      else demoted node.1 (clusterLeadership (hearAll c as)).2 c.primaryNodeId node.2) := by
  have hleadership := hearAll_leadership c as
  rw [hearAll_roles]
  refine List.map_congr_left ?_
  intro node hnode
  have hrole : node.1 = (newest Prod.fst (clusterLeadership c) (claims (nodeIds c) as)).2 ∨
      node.1 = (clusterLeadership c).2 ∨ node.2 = .replica ∨
        ∀ claim ∈ claims (nodeIds c) as, (clusterLeadership c).1 < claim.1 → claim.2 ≠ node.1 := by
    rw [← hleadership]
    exact h node hnode
  rw [roleAfter_eq hrole, hleadership]
  rfl

end Confluence

/-- Announcements in any order and with any repetition lead to one epoch and primary, the newest of
those of members and of the initial one, which stays at a tie, and to the same roles if the members
that are primary only in between were replicas. -/
theorem announcements_confluent {c : ClusterStateModel} {as bs : List (Announcement × ℕ)}
    (hsame : ∀ a, a ∈ as.map (·.1) ↔ a ∈ bs.map (·.1)) (hunambiguous : Unambiguous as) :
    clusterLeadership (hearAll c as) = clusterLeadership (hearAll c bs) ∧
    (clusterLeadership (hearAll c as) = clusterLeadership c ∨
      clusterLeadership (hearAll c as) ∈ claims (nodeIds c) as ∧
        c.leadershipEpoch < (hearAll c as).leadershipEpoch) ∧
    (∀ claim ∈ clusterLeadership c :: claims (nodeIds c) as,
      claim.1 ≤ (hearAll c as).leadershipEpoch) ∧
    (OvertakenReplicas c as → nodeRoles (hearAll c as) = nodeRoles (hearAll c bs)) := by
  have hleadership := hearAll_leadership c as
  have hequal : clusterLeadership (hearAll c as) = clusterLeadership (hearAll c bs) := by
    rw [hleadership, hearAll_leadership]
    exact newest_congr (claims_congr hsame _) hunambiguous.claims _
  refine ⟨hequal, ?_, ?_, ?_⟩
  · change _ ∨ _ ∧ (clusterLeadership c).1 < (clusterLeadership (hearAll c as)).1
    rw [hleadership]
    exact newest_cases Prod.fst _ _
  · intro claim hclaim
    change claim.1 ≤ (clusterLeadership (hearAll c as)).1
    rw [hleadership]
    rcases List.mem_cons.mp hclaim with rfl | hclaim
    · exact rank_held_le Prod.fst _ _
    · exact rank_le_newest Prod.fst _ hclaim
  · intro hroles
    have hprimary : (hearAll c as).primaryNodeId = (hearAll c bs).primaryNodeId :=
      congrArg Prod.snd hequal
    have hroles' : OvertakenReplicas c bs := by
      intro node hnode
      rw [← hprimary]
      refine (hroles node hnode).imp_right (Or.imp_right (Or.imp_right ?_))
      exact fun h claim hclaim => h claim ((claims_congr hsame _ claim).mpr hclaim)
    rw [nodeRoles_hearAll hroles, nodeRoles_hearAll hroles', hequal]

section Sample

/-- The members `b` and `c` win one after the other. Node `a` hears it in order, in the other order,
and with a repetition. -/
theorem announcements_confluent_sample :
    let cluster := (sampleServer "a").cluster
    let late := hearAll cluster [(⟨"c", 2, none⟩, 10), (⟨"b", 1, none⟩, 20), (⟨"c", 2, none⟩, 30)]
    let ordered := hearAll cluster [(⟨"b", 1, none⟩, 10), (⟨"c", 2, none⟩, 20)]
    clusterLeadership late = (2, "c") ∧ clusterLeadership ordered = (2, "c") ∧
      nodeRoles late = nodeRoles ordered := by
  have h := @announcements_confluent (sampleServer "a").cluster
    [(⟨"c", 2, none⟩, 10), (⟨"b", 1, none⟩, 20), (⟨"c", 2, none⟩, 30)]
    [(⟨"b", 1, none⟩, 10), (⟨"c", 2, none⟩, 20)] (by intro a; simp; tauto) (by decide)
  exact ⟨by decide, by decide, h.2.2.2 (by decide)⟩

/-- A cluster with a member that joined in a role of its own. -/
def sampleWitnessCluster : ClusterStateModel :=
  { (sampleServer "a").cluster with
    nodes := [joinedNode "a" .primary 1000, joinedNode "b" (.other "witness") 7000,
      joinedNode "c" .replica 8000] }

/-- The newest announcement names a node that is not a member and is rejected; and a member with
another role than replica is a replica in the end or keeps its role, depending on the order. -/
theorem announcements_diverge :
    (¬ (∀ a ∈ [((⟨"z", 5, none⟩ : Announcement), 10)],
      a.1.epoch ≤ (hearAll sampleWitnessCluster [(⟨"z", 5, none⟩, 10)]).leadershipEpoch)) ∧
    nodeRoles (hearAll sampleWitnessCluster [(⟨"b", 1, none⟩, 10), (⟨"c", 2, none⟩, 20)]) ≠
      nodeRoles (hearAll sampleWitnessCluster [(⟨"c", 2, none⟩, 10), (⟨"b", 1, none⟩, 20)]) := by
  decide

end Sample

end SkeinDB.Cluster
