import SkeinDB.Cluster.PrimaryWrites
import SkeinDB.Cluster.Replica

/-!
# Catching up from the log buffer

A primary keeps the newest part of its log in memory: older operations are trimmed, and a restart
empties the buffer. A replica fetches the operations after its position and applies them, round
after round. It misses nothing if no operation above its position has left the buffer, or if the
oldest that is left is of the term of its position, for then the hole is seen and a snapshot asked
for. A hole that ends in another term, or at the end of the buffer, is not seen.
-/
namespace SkeinDB.Cluster
open Consensus

/-- The log of a primary: what has left the buffer and what is in it. Inside a term the sequence
numbers are consecutive. -/
structure PrimaryHistory where
  dropped : List ReplicationLogEntry
  buffered : List ReplicationLogEntry
  ascending : (dropped ++ buffered).Pairwise (·.position < ·.position)
  dense : (dropped ++ buffered).IsChain fun a b =>
    a.position.term = b.position.term → b.position.seq = a.position.seq + 1

namespace PrimaryHistory

/-- The operations of the primary that a replica at this position lacks. -/
def later (h : PrimaryHistory) (after : Position) : List ReplicationLogEntry :=
  (h.dropped ++ h.buffered).filter (after < ·.position)

/-- A primary whose writes kept to the order of the log has such a log. -/
def ofWritePath {E : Type*} {db : Database E} {s : WritePath E} (h : Writing db s) :
    PrimaryHistory where
  dropped := s.history.take (s.history.length - replicationLogBufferCap s.logBufferCap)
  buffered := s.replicationLog
  ascending := by
    rw [h.buffered, List.take_append_drop]
    exact h.matches.ascending
  dense := by
    rw [h.buffered, List.take_append_drop]
    exact List.IsChain.imp (fun _ _ hnext _ => hnext) (List.IsChain.left_of_append h.dense)

end PrimaryHistory

/-- The position that a replica reaches with these operations. -/
def lastPosition (after : Position) (ops : List ReplicationLogEntry) : Position :=
  ops.foldl (fun _ op => op.position) after

/-- One round of catch-up, against a log that stands still. -/
def catchUpRound (log : List ReplicationLogEntry) (st : AppState) : AppState :=
  (clusterReplicationFetch log st.position replicationCatchupBatch).ops.foldl handleReplicated st

/-- A fetch asks for a snapshot, or returns the next operations, some if there are any. Without a
snapshot the rounds of catch-up apply all of them. -/
structure CatchesUp (h : PrimaryHistory) (after : Position) : Prop where
  complete : ∀ limit, let response := clusterReplicationFetch h.buffered after limit
    response.resyncRequired = true ∨
      (response.ops <+: h.later after ∧ (h.later after ≠ [] → response.ops ≠ []))
  reaches : ∀ st : AppState, st.position = after →
    (clusterReplicationFetch h.buffered after replicationCatchupBatch).resyncRequired = true ∨
      ∃ rounds, ∀ n ≥ rounds, ((catchUpRound h.buffered)^[n] st).engine =
        st.engine ++ h.later after ∧
          ((catchUpRound h.buffered)^[n] st).position = lastPosition after (h.later after)

/-- No operation above the position has left the buffer, or the oldest that is left above it is of
the same term. -/
def Retained (h : PrimaryHistory) (after : Position) : Prop :=
  (∀ op ∈ h.dropped, op.position ≤ after) ∨
    ∃ first ∈ (h.buffered.filter (after < ·.position)).head?, first.position.term = after.term

section Fetch
variable {log : List ReplicationLogEntry} {after : Position} {limit : ℕ}

theorem resyncRequired_iff :
    (clusterReplicationFetch log after limit).resyncRequired = true ↔
      ∃ first ∈ (log.filter (after < ·.position)).head?,
        first.position.term = after.term ∧ after.seq + 1 < first.position.seq := by
  dsimp only [clusterReplicationFetch]
  generalize (log.filter (after < ·.position)).head? = head
  rcases head with _ | first <;> simp

theorem fetch_ops (hresync : (clusterReplicationFetch log after limit).resyncRequired = false) :
    (clusterReplicationFetch log after limit).ops =
      (log.filter (after < ·.position)).take (max 1 (min limit replicationCatchupBatch)) := by
  dsimp only [clusterReplicationFetch] at hresync ⊢
  rw [hresync, if_neg Bool.false_ne_true]

variable {h : PrimaryHistory}

theorem PrimaryHistory.later_eq (h : PrimaryHistory) (after : Position) :
    h.later after =
      h.dropped.filter (after < ·.position) ++ h.buffered.filter (after < ·.position) :=
  List.filter_append _ _

theorem later_eq_buffered (hdropped : ∀ op ∈ h.dropped, op.position ≤ after) :
    h.later after = h.buffered.filter (after < ·.position) := by
  have hnone : h.dropped.filter (after < ·.position) = [] := by
    rw [List.filter_eq_nil_iff]
    intro op hop
    simpa using hdropped op hop
  rw [h.later_eq, hnone, List.nil_append]

theorem mem_pending_of_head? {first : ReplicationLogEntry}
    (hfirst : first ∈ (log.filter (after < ·.position)).head?) :
    first ∈ log ∧ after < first.position := by
  have hmem := List.mem_of_head? hfirst
  simpa using List.mem_filter.mp hmem

/-- A hole in the term of the position is seen. -/
theorem resyncRequired_of_dropped {op first : ReplicationLogEntry} (hop : op ∈ h.dropped)
    (hafter : after < op.position)
    (hfirst : first ∈ (h.buffered.filter (after < ·.position)).head?)
    (hterm : first.position.term = after.term) :
    (clusterReplicationFetch h.buffered after limit).resyncRequired = true := by
  rw [resyncRequired_iff]
  refine ⟨first, hfirst, hterm, ?_⟩
  obtain ⟨hmem, -⟩ := mem_pending_of_head? hfirst
  have hlt := (List.pairwise_append.mp h.ascending).2.2 op hop first hmem
  rw [Position.lt_iff] at hlt hafter
  omega

/-- An operation that has left the buffer is not returned, whatever the limit. -/
theorem not_complete_of_dropped {op : ReplicationLogEntry} (hop : op ∈ h.dropped)
    (hafter : after < op.position) :
    ¬ ((clusterReplicationFetch h.buffered after limit).ops <+: h.later after ∧
      (h.later after ≠ [] → (clusterReplicationFetch h.buffered after limit).ops ≠ [])) := by
  rintro ⟨hpre, hnonempty⟩
  have hmem : op ∈ h.dropped.filter (after < ·.position) := by
    rw [List.mem_filter]
    exact ⟨hop, by simpa using hafter⟩
  rcases hdropped : h.dropped.filter (after < ·.position) with _ | ⟨d, rest⟩
  · rw [hdropped] at hmem
    simp at hmem
  · have hlater : h.later after = d :: (rest ++ h.buffered.filter (after < ·.position)) := by
      rw [h.later_eq, hdropped, List.cons_append]
    rcases hops : (clusterReplicationFetch h.buffered after limit).ops with _ | ⟨e, es⟩
    · exact hnonempty (by simp [hlater]) hops
    · -- the first operation returned would have to be the dropped one
      rw [hops, hlater, List.cons_prefix_cons] at hpre
      have he : e ∈ h.buffered := mem_of_mem_fetch (hops ▸ List.mem_cons_self)
      have hd : d ∈ h.dropped := List.mem_of_mem_filter (hdropped ▸ List.mem_cons_self)
      have hlt := (List.pairwise_append.mp h.ascending).2.2 d hd e he
      rw [hpre.1] at hlt
      exact lt_irrefl _ hlt

theorem complete_of_kept (hdropped : ∀ op ∈ h.dropped, op.position ≤ after)
    (hresync : (clusterReplicationFetch h.buffered after limit).resyncRequired = false) :
    (clusterReplicationFetch h.buffered after limit).ops <+: h.later after ∧
      (h.later after ≠ [] → (clusterReplicationFetch h.buffered after limit).ops ≠ []) := by
  rw [fetch_ops hresync, later_eq_buffered hdropped]
  refine ⟨List.take_prefix _ _, ?_⟩
  intro hne htake
  rcases List.take_eq_nil_iff.mp htake with hzero | hnil
  · omega
  · exact hne hnil

end Fetch

section Rounds
variable {log ops : List ReplicationLogEntry} {st : AppState} {after : Position}

/-- Each operation is the one to apply after the one before it. -/
def Successive : Position → List ReplicationLogEntry → Prop
  | _, [] => True
  | after, op :: ops => decideReplicationApply after op.position = .apply ∧
    Successive op.position ops

theorem lastPosition_append (after : Position) (ops ops' : List ReplicationLogEntry) :
    lastPosition after (ops ++ ops') = lastPosition (lastPosition after ops) ops' :=
  List.foldl_append

theorem successive_append (after : Position) (ops ops' : List ReplicationLogEntry) :
    Successive after (ops ++ ops') ↔
      Successive after ops ∧ Successive (lastPosition after ops) ops' := by
  induction ops generalizing after with
  | nil => simp [Successive, lastPosition]
  | cons op ops ih =>
    rw [List.cons_append, Successive, ih, Successive, and_assoc]
    rfl

theorem successive_of_chain
    (hfirst : ∀ op ∈ ops.head?, decideReplicationApply after op.position = .apply)
    (hchain : ops.IsChain fun a b => decideReplicationApply a.position b.position = .apply) :
    Successive after ops := by
  induction ops generalizing after with
  | nil => trivial
  | cons op ops ih =>
    rw [List.isChain_cons] at hchain
    exact ⟨hfirst op rfl, ih hchain.1 hchain.2⟩

/-- Successive operations are all applied. -/
theorem foldl_handleReplicated (hops : Successive st.position ops) :
    (ops.foldl handleReplicated st).engine = st.engine ++ ops ∧
      (ops.foldl handleReplicated st).position = lastPosition st.position ops := by
  induction ops generalizing st with
  | nil => simp [lastPosition]
  | cons op ops ih =>
    have hhandle := @handleReplicated_of_apply st op hops.1
    have hposition : (handleReplicated st op).position = op.position := by
      rw [hhandle]
      rfl
    have hengine : (handleReplicated st op).engine = st.engine ++ [op] := by
      rw [hhandle]
    obtain ⟨hih, hlast⟩ := @ih (handleReplicated st op) (by rw [hposition]; exact hops.2)
    rw [List.foldl_cons, hih, hlast, hengine, hposition, List.append_assoc]
    exact ⟨rfl, rfl⟩

theorem no_resync {limit : ℕ} (hpending : Successive after (log.filter (after < ·.position))) :
    (clusterReplicationFetch log after limit).resyncRequired = false := by
  rw [← Bool.not_eq_true, resyncRequired_iff]
  rintro ⟨first, hfirst, hterm, hseq⟩
  rcases hlist : log.filter (after < ·.position) with _ | ⟨op, ops⟩
  · rw [hlist] at hfirst
    simp at hfirst
  · rw [hlist] at hfirst hpending
    cases hfirst
    have happly := hpending.1
    rw [decideReplicationApply_apply] at happly
    omega

/-- What is above the first operations of the rest of a log are the others. -/
theorem filter_lastPosition {taken rest : List ReplicationLogEntry}
    (hlog : log.Pairwise (·.position < ·.position))
    (hpending : log.filter (after < ·.position) = taken ++ rest) :
    log.filter (lastPosition after taken < ·.position) = rest := by
  induction taken generalizing after with
  | nil => exact hpending
  | cons op taken ih =>
    refine @ih op.position ?_
    have hsorted : (op :: (taken ++ rest)).Pairwise (·.position < ·.position) := by
      rw [← List.cons_append, ← hpending]
      exact hlog.filter _
    have hafter : after < op.position := by
      have hop : op ∈ log.filter (after < ·.position) := by
        rw [hpending]
        simp
      simpa using (List.mem_filter.mp hop).2
    calc log.filter (op.position < ·.position)
        = (log.filter (after < ·.position)).filter (op.position < ·.position) := by
          rw [List.filter_filter]
          refine List.filter_congr ?_
          intro e _
          rw [← Bool.decide_and, decide_eq_decide]
          exact ⟨fun he => ⟨he, hafter.trans he⟩, fun he => he.1⟩
      _ = (op :: (taken ++ rest)).filter (op.position < ·.position) := by
          rw [hpending, List.cons_append]
      _ = (taken ++ rest).filter (op.position < ·.position) := by simp
      _ = taken ++ rest := by
          rw [List.filter_eq_self]
          intro e he
          simpa using (List.pairwise_cons.mp hsorted).1 e he

/-- The rounds apply all that the buffer has above the position. -/
theorem catchUpRounds (hlog : log.Pairwise (·.position < ·.position)) {pending : _}
    (hdef : log.filter (st.position < ·.position) = pending)
    (hpending : Successive st.position pending) {n : ℕ} (hn : pending.length ≤ n) :
    ((catchUpRound log)^[n] st).engine = st.engine ++ pending ∧
      ((catchUpRound log)^[n] st).position = lastPosition st.position pending := by
  induction n generalizing st pending with
  | zero =>
    have hnil := List.length_eq_zero_iff.mp (Nat.le_zero.mp hn)
    simp [hnil, lastPosition]
  | succ n ih =>
    have hsplit : pending.take replicationCatchupBatch ++ pending.drop replicationCatchupBatch =
        pending := List.take_append_drop _ _
    rw [← hsplit, successive_append] at hpending
    have hround : catchUpRound log st =
        (pending.take replicationCatchupBatch).foldl handleReplicated st := by
      rw [catchUpRound, fetch_ops (no_resync ?_), hdef]
      · rfl
      · rw [hdef, ← hsplit, successive_append]
        exact hpending
    obtain ⟨hengine, hposition⟩ := foldl_handleReplicated hpending.1
    rw [← hround] at hengine hposition
    have hrest : log.filter ((catchUpRound log st).position < ·.position) =
        pending.drop replicationCatchupBatch := by
      rw [hposition]
      exact filter_lastPosition hlog (hdef.trans hsplit.symm)
    have hlength : (pending.drop replicationCatchupBatch).length ≤ n := by
      rw [List.length_drop, replicationCatchupBatch]
      omega
    obtain ⟨hengine', hposition'⟩ := ih hrest (by rw [hposition]; exact hpending.2) hlength
    rw [Function.iterate_succ_apply, hengine', hposition', hengine, hposition]
    constructor
    · rw [List.append_assoc, hsplit]
    · rw [← lastPosition_append, hsplit]

end Rounds

section Kept
variable {h : PrimaryHistory} {after : Position}

theorem decide_of_chain {ops : List ReplicationLogEntry}
    (hsorted : ops.Pairwise (·.position < ·.position))
    (hdense : ops.IsChain fun a b =>
      a.position.term = b.position.term → b.position.seq = a.position.seq + 1) :
    ops.IsChain fun a b => decideReplicationApply a.position b.position = .apply := by
  induction ops with
  | nil => exact List.isChain_nil
  | cons a ops ih =>
    obtain ⟨hlt, hsorted⟩ := List.pairwise_cons.mp hsorted
    rw [List.isChain_cons] at hdense ⊢
    refine ⟨?_, ih hsorted hdense.2⟩
    intro b hb
    have hab := hlt b (List.mem_of_head? hb)
    have hnext := hdense.1 b hb
    rw [Position.lt_iff] at hab
    rw [decideReplicationApply_apply]
    omega

/-- Without a resync the operations that a replica lacks are successive. -/
theorem later_successive (hdropped : ∀ op ∈ h.dropped, op.position ≤ after) {limit : ℕ}
    (hresync : (clusterReplicationFetch h.buffered after limit).resyncRequired = false) :
    Successive after (h.later after) := by
  have hsplit := Transition.filter_le_append_filter_lt h.ascending after
  refine successive_of_chain ?_ ?_
  · intro op hop
    rw [later_eq_buffered hdropped] at hop
    obtain ⟨-, hafter⟩ := mem_pending_of_head? hop
    rw [← Bool.not_eq_true, resyncRequired_iff] at hresync
    have hseq : op.position.term = after.term → op.position.seq ≤ after.seq + 1 := by
      intro hterm
      by_contra hhole
      exact hresync ⟨op, hop, hterm, not_le.mp hhole⟩
    rw [Position.lt_iff] at hafter
    rw [decideReplicationApply_apply]
    omega
  · have hchain := h.dense
    have hsorted := h.ascending
    rw [← hsplit] at hchain hsorted
    refine decide_of_chain (List.pairwise_append.mp hsorted).2.1 ?_
    exact List.IsChain.right_of_append hchain

theorem catchesUp_of_kept (hdropped : ∀ op ∈ h.dropped, op.position ≤ after) :
    CatchesUp h after := by
  constructor
  · intro limit
    rcases hresync : (clusterReplicationFetch h.buffered after limit).resyncRequired with _ | _
    · exact Or.inr (complete_of_kept hdropped hresync)
    · exact Or.inl hresync
  · rintro st rfl
    rcases hresync : (clusterReplicationFetch h.buffered st.position
      replicationCatchupBatch).resyncRequired with _ | _
    · refine Or.inr ⟨(h.later st.position).length, fun n hn => ?_⟩
      exact catchUpRounds (List.pairwise_append.mp h.ascending).2.1
        (later_eq_buffered hdropped).symm (later_successive hdropped hresync) hn
    · exact Or.inl rfl

end Kept

/-- A fetch returns all that follows a position or asks for a snapshot, and catch-up reaches the
primary, if and only if no operation above the position has left the buffer or the oldest that is
left above it is of the same term. -/
theorem catchesUp_iff (h : PrimaryHistory) (after : Position) :
    CatchesUp h after ↔ Retained h after := by
  constructor
  · intro hcatches
    by_contra hnot
    rw [Retained, not_or] at hnot
    obtain ⟨hdropped, hfirst⟩ := hnot
    push Not at hdropped
    obtain ⟨op, hop, hafter⟩ := hdropped
    rcases hcatches.complete 1 with hresync | hcomplete
    · obtain ⟨first, hhead, hterm, -⟩ := resyncRequired_iff.mp hresync
      exact hfirst ⟨first, hhead, hterm⟩
    · exact not_complete_of_dropped hop hafter hcomplete
  · intro hretained
    by_cases hdropped : ∀ op ∈ h.dropped, op.position ≤ after
    · exact catchesUp_of_kept hdropped
    · obtain ⟨first, hhead, hterm⟩ := hretained.resolve_left hdropped
      push Not at hdropped
      obtain ⟨op, hop, hafter⟩ := hdropped
      exact ⟨fun limit => Or.inl (resyncRequired_of_dropped hop hafter hhead hterm),
        fun st _ => Or.inl (resyncRequired_of_dropped hop hafter hhead hterm)⟩

section Sample

/-- The buffer has lost the first write of the second term. -/
def sampleTrimmed : PrimaryHistory where
  dropped := [sampleOp 0 1, sampleOp 1 2]
  buffered := [sampleOp 1 3]
  ascending := by decide
  dense := by simp [sampleOp]

/-- The primary has restarted. -/
def sampleRestarted : PrimaryHistory where
  dropped := [sampleOp 0 1]
  buffered := []
  ascending := by decide
  dense := by simp

/-- A replica that has applied the first term gets the second write of the second term, and not the
first. A replica that has applied nothing gets nothing from a restarted primary. -/
theorem fetch_skips :
    ¬ CatchesUp sampleTrimmed ⟨0, 1⟩ ∧ ¬ CatchesUp sampleRestarted 0 := by
  constructor
  · intro h
    have hcomplete := h.complete 256
    revert hcomplete
    decide
  · intro h
    have hcomplete := h.complete 256
    revert hcomplete
    decide

end Sample

end SkeinDB.Cluster
