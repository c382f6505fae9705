import SkeinDB.Cluster.Replica
import SkeinDB.Transition.Runs

/-!
# Concurrent deliveries

A delivery of a replicated operation reads the recorded position, executes the operation on the
engine and records its position, each under its own lock. Fan-out requests, retries and catch-up
batches (which a replica sends to itself) all take these steps, so that deliveries overlap. An
operation is applied once and the recorded position only rises as long as no delivery is overtaken
between its check and its execution or between its execution and its recording.
-/
namespace SkeinDB.Cluster
open Consensus Transition

/-- A replica in the middle of deliveries: `passed` went through the gate and wait for the engine,
`executed` have been executed and are not recorded yet. -/
structure Deliveries where
  replica : AppState
  passed : List ReplicationLogEntry
  executed : List ReplicationLogEntry

/-- `reject` is an execution that the engine answers with an error. -/
inductive DeliveryStep where
  | check (op : ReplicationLogEntry)
  | execute (op : ReplicationLogEntry)
  | reject (op : ReplicationLogEntry)
  | record (op : ReplicationLogEntry)

namespace Deliveries

def idle (st : AppState) : Deliveries := ⟨st, [], []⟩

def step (d : Deliveries) : DeliveryStep → Option Deliveries
  | .check op =>
    match decideReplicationApply d.replica.position op.position with
    | .apply => some { d with passed := op :: d.passed }
    | .duplicate => some d
    | .gap => some d
  | .execute op =>
    if op ∈ d.passed then some
      { replica := { d.replica with engine := d.replica.engine ++ [op] }
        passed := d.passed.erase op
        executed := op :: d.executed }
    else none
  | .reject op => if op ∈ d.passed then some { d with passed := d.passed.erase op } else none
  | .record op =>
    if op ∈ d.executed then some
      { d with
        replica := { d.replica with
          cluster := noteAppliedReplication d.replica.cluster op.position }
        executed := d.executed.erase op }
    else none

end Deliveries

/-- No operation was applied twice. -/
def AppliedOnce (d : Deliveries) : Prop := (d.replica.engine.map (·.position)).Nodup

instance (d : Deliveries) : Decidable (AppliedOnce d) := inferInstanceAs (Decidable (List.Nodup _))

/-- In every state of a run no operation was applied twice, and no step lowers the recorded
position. -/
structure AtMostOnce (d : Deliveries) (steps : List DeliveryStep) : Prop where
  once : Always Deliveries.step AppliedOnce d steps
  rises : EachStep Deliveries.step (fun d _ d' => d.replica.position ≤ d'.replica.position) d steps

/-- An operation is executed while it is above the recorded position and no other delivery of it
waits to be recorded, and of the executed operations the lowest is recorded first. -/
def InOrder (d : Deliveries) : DeliveryStep → Prop
  | .execute op => d.replica.position < op.position ∧ ∀ e ∈ d.executed, e.position ≠ op.position
  | .record op => ∀ e ∈ d.executed, op.position ≤ e.position
  | .check _ => True
  | .reject _ => True

instance (d : Deliveries) : (a : DeliveryStep) → Decidable (InOrder d a)
  | .execute _ => inferInstanceAs (Decidable (_ ∧ ∀ e ∈ d.executed, _))
  | .record _ => inferInstanceAs (Decidable (∀ e ∈ d.executed, _))
  | .check _ | .reject _ => isTrue trivial

/-- A replica on which no delivery is under way. -/
structure Settled (st : AppState) : Prop where
  once : (st.engine.map (·.position)).Nodup
  below : ∀ op ∈ st.engine, op.position ≤ st.position

section Invariant
variable {d d' : Deliveries} {op : ReplicationLogEntry} {a : DeliveryStep}

structure Delivering (d : Deliveries) : Prop where
  once : AppliedOnce d
  distinct : (d.executed.map (·.position)).Nodup
  above : ∀ op ∈ d.executed, d.replica.position < op.position
  covered : ∀ op ∈ d.replica.engine, op.position ≤ d.replica.position ∨ op ∈ d.executed

theorem Settled.delivering {st : AppState} (h : Settled st) : Delivering (.idle st) where
  once := h.once
  distinct := List.nodup_nil
  above := by simp [Deliveries.idle]
  covered op hop := Or.inl (h.below op hop)

theorem Delivering.execute (h : Delivering d) (hok : InOrder d (.execute op)) :
    Delivering
      { replica := { d.replica with engine := d.replica.engine ++ [op] }
        passed := d.passed.erase op
        executed := op :: d.executed } := by
  obtain ⟨habove, hother⟩ := hok
  have hnew : ∀ e ∈ d.replica.engine, e.position ≠ op.position := by
    intro e he
    rcases h.covered e he with hle | hexecuted
    · exact (hle.trans_lt habove).ne
    · exact hother e hexecuted
  constructor
  · simp only [AppliedOnce, List.map_append, List.map_cons, List.map_nil]
    rw [List.nodup_append]
    refine ⟨h.once, List.nodup_singleton _, ?_⟩
    intro p hp q hq
    obtain ⟨e, he, rfl⟩ := List.mem_map.mp hp
    rw [List.mem_singleton.mp hq]
    exact hnew e he
  · rw [List.map_cons, List.nodup_cons]
    refine ⟨?_, h.distinct⟩
    intro hmem
    obtain ⟨e, he, heq⟩ := List.mem_map.mp hmem
    exact hother e he heq
  · intro e he
    rcases List.mem_cons.mp he with rfl | he
    · exact habove
    · exact h.above e he
  · intro e he
    rcases List.mem_append.mp he with he | he
    · exact (h.covered e he).imp_right (List.mem_cons_of_mem op)
    · exact Or.inr (List.mem_cons.mpr (Or.inl (List.mem_singleton.mp he)))

theorem Delivering.record (h : Delivering d) (hop : op ∈ d.executed)
    (hok : InOrder d (.record op)) :
    Delivering { d with
      replica := { d.replica with cluster := noteAppliedReplication d.replica.cluster op.position }
      executed := d.executed.erase op } := by
  have hne : ∀ e ∈ d.executed.erase op, e.position ≠ op.position := by
    intro e he heq
    have hperm := (List.perm_cons_erase hop).map (·.position)
    have hnodup := hperm.nodup_iff.mp h.distinct
    rw [List.map_cons, List.nodup_cons] at hnodup
    exact hnodup.1 (List.mem_map.mpr ⟨e, he, heq⟩)
  constructor
  · exact h.once
  · exact h.distinct.sublist (List.erase_sublist.map _)
  · intro e he
    exact lt_of_le_of_ne (hok e (List.mem_of_mem_erase he)) (hne e he).symm
  · intro e he
    change e.position ≤ op.position ∨ e ∈ d.executed.erase op
    rcases h.covered e he with hle | hexecuted
    · exact Or.inl (hle.trans (h.above op hop).le)
    · by_cases heq : e = op
      · exact Or.inl (by rw [heq])
      · exact Or.inr ((List.mem_erase_of_ne heq).mpr hexecuted)

theorem Delivering.step (h : Delivering d) (hok : InOrder d a) (hstep : d.step a = some d') :
    Delivering d' ∧ d.replica.position ≤ d'.replica.position := by
  cases a with
  | check op =>
    simp only [Deliveries.step] at hstep
    rcases hdecide : decideReplicationApply d.replica.position op.position <;>
      simp only [hdecide, Option.some.injEq] at hstep <;> subst hstep
    · exact ⟨⟨h.once, h.distinct, h.above, h.covered⟩, le_rfl⟩
    · exact ⟨h, le_rfl⟩
    · exact ⟨h, le_rfl⟩
  | execute op =>
    simp only [Deliveries.step, Option.ite_none_right_eq_some, Option.some.injEq] at hstep
    obtain ⟨-, rfl⟩ := hstep
    exact ⟨h.execute hok, le_rfl⟩
  | reject op =>
    simp only [Deliveries.step, Option.ite_none_right_eq_some, Option.some.injEq] at hstep
    obtain ⟨-, rfl⟩ := hstep
    exact ⟨⟨h.once, h.distinct, h.above, h.covered⟩, le_rfl⟩
  | record op =>
    simp only [Deliveries.step, Option.ite_none_right_eq_some, Option.some.injEq] at hstep
    obtain ⟨hop, rfl⟩ := hstep
    exact ⟨h.record hop hok, (h.above op hop).le⟩

end Invariant

/-- In every run of overlapping deliveries whose steps are in order, no operation is applied twice
and the recorded position never decreases. -/
theorem at_most_once {st : AppState} (hsettled : Settled st) {steps : List DeliveryStep}
    (hmeets : Meets Deliveries.step InOrder (.idle st) steps) : AtMostOnce (.idle st) steps := by
  have hkeeps : Keeps Deliveries.step InOrder Delivering :=
    fun d a d' h hok hstep => (h.step hok hstep).1
  constructor
  · exact hkeeps.always hsettled.delivering hmeets fun d h => h.once
  · exact hkeeps.eachStep hsettled.delivering hmeets fun d a d' h hok hstep => (h.step hok hstep).2

section Serial
variable {st : AppState}

/-- The steps of a delivery that nothing interrupts. -/
def deliver (st : AppState) (op : ReplicationLogEntry) : List DeliveryStep :=
  if decideReplicationApply st.position op.position = .apply then
    [.check op, .execute op, .record op]
  else [.check op]

def deliverAll (st : AppState) : List ReplicationLogEntry → List DeliveryStep
  | [] => []
  | op :: ops => deliver st op ++ deliverAll (handleReplicated st op) ops

/-- Uninterrupted, a delivery is what the request handler does. -/
theorem run_deliver (st : AppState) (op : ReplicationLogEntry) :
    run Deliveries.step (.idle st) (deliver st op) = some (.idle (handleReplicated st op)) ∧
      Meets Deliveries.step InOrder (.idle st) (deliver st op) := by
  by_cases happly : decideReplicationApply st.position op.position = .apply
  · have hlt := lt_of_decideReplicationApply happly
    rw [handleReplicated_of_apply happly]
    simp [deliver, happly, Deliveries.step, Deliveries.idle, Meets, InOrder, hlt]
  · rw [handleReplicated_of_skip happly]
    rcases hdecide : decideReplicationApply st.position op.position <;>
      simp_all [deliver, Deliveries.step, Deliveries.idle, Meets, InOrder]

/-- Deliveries that do not overlap are in order. -/
theorem run_deliverAll (ops : List ReplicationLogEntry) (st : AppState) :
    run Deliveries.step (.idle st) (deliverAll st ops) =
        some (.idle (ops.foldl handleReplicated st)) ∧
      Meets Deliveries.step InOrder (.idle st) (deliverAll st ops) := by
  induction ops generalizing st with
  | nil => exact ⟨rfl, trivial⟩
  | cons op ops ih =>
    obtain ⟨hrun, hmeets⟩ := run_deliver st op
    obtain ⟨hrest, hmeets'⟩ := ih (handleReplicated st op)
    rw [deliverAll, Transition.run_append, hrun]
    exact ⟨hrest, hmeets.append hrun hmeets'⟩

end Serial

section Sample

theorem sampleServer_settled (n : NodeId) : Settled (sampleServer n) := ⟨by simp [sampleServer],
  by simp [sampleServer]⟩

/-- Two deliveries of one operation overlap, and the second is rejected by the engine. -/
theorem at_most_once_sample :
    AtMostOnce (.idle (sampleServer "b")) [.check (sampleOp 0 1), .check (sampleOp 0 1),
      .execute (sampleOp 0 1), .reject (sampleOp 0 1), .record (sampleOp 0 1)] :=
  at_most_once (sampleServer_settled "b") (by decide +kernel)

/-- Two deliveries of one operation both pass the gate. The second is executed after the first was
recorded and another operation applied, and recording it takes the position back. -/
theorem delivered_twice :
    let steps : List DeliveryStep := [.check (sampleOp 0 1), .check (sampleOp 0 1),
      .execute (sampleOp 0 1), .record (sampleOp 0 1), .check (sampleOp 0 2),
      .execute (sampleOp 0 2), .record (sampleOp 0 2), .execute (sampleOp 0 1),
      .record (sampleOp 0 1)]
    Settled (sampleServer "b") ∧
      ¬ Always Deliveries.step AppliedOnce (.idle (sampleServer "b")) steps ∧
      ¬ EachStep Deliveries.step (fun d _ d' => d.replica.position ≤ d'.replica.position)
        (.idle (sampleServer "b")) steps := by
  refine ⟨sampleServer_settled "b", ?_, ?_⟩
  · intro h
    have hlast := h _ [] (List.append_nil _).symm _ rfl
    revert hlast
    decide +kernel
  · intro h
    have hlast := h [_, _, _, _, _, _, _, _] _ [] rfl _ _ rfl rfl
    revert hlast
    decide +kernel

end Sample

end SkeinDB.Cluster
