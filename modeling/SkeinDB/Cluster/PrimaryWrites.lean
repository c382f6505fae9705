import SkeinDB.Cluster.Replication
import SkeinDB.Format.Primitives
import SkeinDB.Transition.Replay
import SkeinDB.Transition.Runs

/-!
# Client writes on a primary

A replicable request takes the shared sequence barrier, executes under the engine lock, takes the
next log position under the cluster lock, is appended to the log under the lock of the log, and is
fanned out after that. Between two of these steps other requests take theirs. The log describes
the engine as long as the requests pass through these locks in the same order.
-/
namespace SkeinDB.Cluster
open Consensus Format Transition

/-- A request of a client. -/
structure ClientWrite where
  method : String
  params : String
deriving DecidableEq, Repr

def ReplicationLogEntry.write (op : ReplicationLogEntry) : ClientWrite := ⟨op.method, op.params⟩

def replicatedMethods : List String :=
  ["schema.create_database", "schema.drop_database", "schema.create_table", "schema.drop_table",
    "schema.apply_merge", "data.insert", "data.update", "data.delete", "vector.insert",
    "merge.register", "merge.apply", "merge.wasm.register", "merge.wasm.drop", "view.create",
    "view.drop", "view.refresh", "edge.bundle.apply"]

/-- `sqlExecIsReadOnly` is the classification of the statement in `sql.exec`. -/
def shouldReplicateMethod (sqlExecIsReadOnly : String → Bool) (w : ClientWrite) : Bool :=
  if w.method = "sql.exec" then !sqlExecIsReadOnly w.params else w.method ∈ replicatedMethods

/-- What the server does with a database engine: its execution of a request, with whether it
succeeded, and the classification of SQL statements. -/
structure Database (E : Type*) where
  exec : E → ClientWrite → E × Bool
  sqlExecIsReadOnly : String → Bool

/-- A primary in the middle of requests. `admitted` hold the barrier and wait for the engine,
`executed` have no position yet, and `numbered` are not in the log yet. `initial` is the engine
with which the log begins, `history` all that was appended to the log, of which `replicationLog`
is the part in memory, and `succeeded` the writes that the engine took, in its order. -/
structure WritePath (E : Type*) where
  initial : E
  engine : E
  cluster : ClusterStateModel
  logBufferCap : Option ℕ
  history : List ReplicationLogEntry
  replicationLog : List ReplicationLogEntry
  admitted : List ClientWrite
  executed : List ClientWrite
  numbered : List ReplicationLogEntry
  succeeded : List ClientWrite

/-- `other` is a request that is not replicated, and `cluster` a change of the cluster state by
requests, votes and heartbeats. -/
inductive WriteStep where
  | accept (w : ClientWrite)
  | execute (w : ClientWrite)
  | assign (w : ClientWrite)
  | append (op : ReplicationLogEntry)
  | fanOut (op : ReplicationLogEntry)
  | other (w : ClientWrite)
  | cluster (c : ClusterStateModel)

namespace WritePath
variable {E : Type*}

/-- A primary on which no request is under way, at the beginning of its log. -/
def idle (engine : E) (cluster : ClusterStateModel) (logBufferCap : Option ℕ) : WritePath E where
  initial := engine
  engine := engine
  cluster := cluster
  logBufferCap := logBufferCap
  history := []
  replicationLog := []
  admitted := []
  executed := []
  numbered := []
  succeeded := []

def head (s : WritePath E) : Position :=
  ⟨s.cluster.leadershipEpoch, s.cluster.replication.opSeq⟩

/-- The engine lock makes the execution of a request one step. -/
def execute (db : Database E) (s : WritePath E) (w : ClientWrite) : WritePath E :=
  let result := db.exec s.engine w
  { s with
    engine := result.1
    admitted := s.admitted.erase w
    executed := if result.2 then s.executed ++ [w] else s.executed
    succeeded := if result.2 then s.succeeded ++ [w] else s.succeeded }

/-- First half of `record_replication_op`, under the cluster lock. -/
def assign (s : WritePath E) (w : ClientWrite) : WritePath E :=
  if !s.cluster.enabled then { s with executed := s.executed.erase w }
  else
    let opSeq := saturatingAdd s.cluster.replication.opSeq 1
    { s with
      cluster := { s.cluster with replication := { s.cluster.replication with opSeq := opSeq } }
      executed := s.executed.erase w
      numbered := s.numbered ++ [⟨⟨s.cluster.leadershipEpoch, opSeq⟩, w.method, w.params⟩] }

/-- Second half of `record_replication_op`, under the lock of the log. -/
def append (s : WritePath E) (op : ReplicationLogEntry) : WritePath E :=
  let log := s.replicationLog ++ [op]
  { s with
    history := s.history ++ [op]
    replicationLog := log.drop (log.length - replicationLogBufferCap s.logBufferCap)
    numbered := s.numbered.erase op }

def step (db : Database E) (s : WritePath E) : WriteStep → Option (WritePath E)
  | .accept w =>
    if shouldReplicateMethod db.sqlExecIsReadOnly w then some { s with admitted := w :: s.admitted }
    else none
  | .execute w => if w ∈ s.admitted then some (s.execute db w) else none
  | .assign w => if w ∈ s.executed then some (s.assign w) else none
  | .append op => if op ∈ s.numbered then some (s.append op) else none
  | .fanOut op => if op ∈ s.history then some s else none
  | .other w =>
    if shouldReplicateMethod db.sqlExecIsReadOnly w then none
    else some { s with engine := (db.exec s.engine w).1 }
  | .cluster c =>
    if c.enabled = s.cluster.enabled ∧ c.replication.opSeq = s.cluster.replication.opSeq ∧
        s.cluster.leadershipEpoch ≤ c.leadershipEpoch then some { s with cluster := c }
    else none

/-- The writes with a position, in the order of their positions. -/
def logged (s : WritePath E) : List ClientWrite := (s.history ++ s.numbered).map (·.write)

/-- What a step does. -/
theorem step_cases {db : Database E} {s s' : WritePath E} {a : WriteStep}
    (hstep : s.step db a = some s') :
    (∃ w, a = .accept w ∧ s' = { s with admitted := w :: s.admitted }) ∨
    (∃ w, a = .execute w ∧ w ∈ s.admitted ∧ s' = s.execute db w) ∨
    (∃ w, a = .assign w ∧ w ∈ s.executed ∧ s' = s.assign w) ∨
    (∃ op, a = .append op ∧ op ∈ s.numbered ∧ s' = s.append op) ∨
    (∃ op, a = .fanOut op ∧ s' = s) ∨
    (∃ w, a = .other w ∧ s' = { s with engine := (db.exec s.engine w).1 }) ∨
    ∃ c, a = .cluster c ∧ c.enabled = s.cluster.enabled ∧
      c.replication.opSeq = s.cluster.replication.opSeq ∧
      s.cluster.leadershipEpoch ≤ c.leadershipEpoch ∧ s' = { s with cluster := c } := by
  cases a <;> simp only [step, Option.ite_none_right_eq_some, Option.ite_none_left_eq_some,
    Option.some.injEq] at hstep <;> grind

end WritePath

section Condition
variable {E : Type*} (db : Database E)

/-- A failed request and one that is not replicated leave the engine as it was. To number a write
before those executed earlier makes no difference to the engine, and the write with the lowest
position is appended first. -/
def InLogOrder (s : WritePath E) : WriteStep → Prop
  | .execute w => (db.exec s.engine w).2 = false → (db.exec s.engine w).1 = s.engine
  | .other w => (db.exec s.engine w).1 = s.engine
  | .assign w => s.cluster.replication.opSeq < 2 ^ 64 - 1 ∧
    replay db.exec (replay db.exec s.initial s.logged) (w :: s.executed.erase w) =
      replay db.exec (replay db.exec s.initial s.logged) s.executed
  | .append op => ∀ e ∈ s.numbered, op.position ≤ e.position
  | .accept _ => True
  | .fanOut _ => True
  | .cluster _ => True

instance [DecidableEq E] (s : WritePath E) : (a : WriteStep) → Decidable (InLogOrder db s a)
  | .execute _ => inferInstanceAs (Decidable (_ → _))
  | .other _ => inferInstanceAs (Decidable (_ = _))
  | .assign _ => inferInstanceAs (Decidable (_ ∧ _))
  | .append _ => inferInstanceAs (Decidable (∀ e ∈ s.numbered, _))
  | .accept _ | .fanOut _ | .cluster _ => isTrue trivial

/-- The log ascends, holds every successful write that is not under way exactly once, and leads
from the initial engine to the engine when no write is under way. In memory is its newest part. -/
structure LogMatches (s : WritePath E) : Prop where
  ascending : s.history.Pairwise (·.position < ·.position)
  once : (s.logged ++ s.executed).Perm s.succeeded
  replays : s.executed = [] → s.numbered = [] →
    replay db.exec s.initial (s.history.map (·.write)) = s.engine
  buffered : s.replicationLog =
    s.history.drop (s.history.length - replicationLogBufferCap s.logBufferCap)

end Condition

section Invariant
variable {E : Type*} {db : Database E} {s s' : WritePath E} {w : ClientWrite}
  {op : ReplicationLogEntry} {a : WriteStep}

structure Writing (db : Database E) (s : WritePath E) : Prop where
  enabled : s.cluster.enabled = true
  ascending : (s.history ++ s.numbered).Pairwise (·.position < ·.position)
  bounded : ∀ op ∈ s.history ++ s.numbered, op.position ≤ s.head
  dense : (s.history ++ s.numbered).IsChain fun a b => b.position.seq = a.position.seq + 1
  newest : ∀ op ∈ (s.history ++ s.numbered).getLast?,
    op.position.seq = s.cluster.replication.opSeq
  replays : replay db.exec s.initial (s.logged ++ s.executed) = s.engine
  once : (s.logged ++ s.executed).Perm s.succeeded
  buffered : s.replicationLog =
    s.history.drop (s.history.length - replicationLogBufferCap s.logBufferCap)

theorem Writing.idle (engine : E) {cluster : ClusterStateModel} (logBufferCap : Option ℕ)
    (henabled : cluster.enabled = true) : Writing db (.idle engine cluster logBufferCap) where
  enabled := henabled
  ascending := List.Pairwise.nil
  bounded := by simp [WritePath.idle]
  dense := List.isChain_nil
  newest := by simp [WritePath.idle]
  replays := rfl
  once := List.Perm.nil
  buffered := by simp [WritePath.idle]

theorem Writing.matches (h : Writing db s) : LogMatches db s where
  ascending := (List.pairwise_append.mp h.ascending).1
  once := h.once
  replays hexecuted hnumbered := by
    have hreplays := h.replays
    rw [WritePath.logged, hexecuted, hnumbered, List.append_nil, List.append_nil] at hreplays
    exact hreplays
  buffered := h.buffered

theorem Writing.execute (h : Writing db s) (hok : InLogOrder db s (.execute w)) :
    Writing db (s.execute db w) := by
  have hreplays := h.replays
  rcases hresult : (db.exec s.engine w).2 with _ | _
  · refine ⟨h.enabled, h.ascending, h.bounded, h.dense, h.newest, ?_, ?_, h.buffered⟩
    · rw [WritePath.execute, hresult, hok hresult]
      exact hreplays
    · rw [WritePath.execute, hresult]
      exact h.once
  · refine ⟨h.enabled, h.ascending, h.bounded, h.dense, h.newest, ?_, ?_, h.buffered⟩
    · rw [WritePath.execute, hresult]
      change replay db.exec s.initial (s.logged ++ (s.executed ++ [w])) = _
      rw [← List.append_assoc, replay_concat, hreplays]
    · rw [WritePath.execute, hresult]
      change (s.logged ++ (s.executed ++ [w])).Perm (s.succeeded ++ [w])
      rw [← List.append_assoc]
      exact h.once.append_right [w]

theorem head_lt_next (s : WritePath E) (hroom : s.cluster.replication.opSeq < 2 ^ 64 - 1) :
    s.head < ⟨s.cluster.leadershipEpoch, saturatingAdd s.cluster.replication.opSeq 1⟩ := by
  rw [Position.lt_iff, WritePath.head, saturatingAdd]
  dsimp only
  omega

theorem Writing.assign (h : Writing db s) (hw : w ∈ s.executed)
    (hok : InLogOrder db s (.assign w)) : Writing db (s.assign w) := by
  obtain ⟨hroom, hharmless⟩ := hok
  set op : ReplicationLogEntry :=
    ⟨⟨s.cluster.leadershipEpoch, saturatingAdd s.cluster.replication.opSeq 1⟩, w.method, w.params⟩
    with hop
  have hnext : op.position.seq = s.cluster.replication.opSeq + 1 := by
    rw [hop, saturatingAdd]
    dsimp only
    omega
  have hassign : s.assign w = { s with
      cluster := { s.cluster with replication :=
        { s.cluster.replication with opSeq := saturatingAdd s.cluster.replication.opSeq 1 } }
      executed := s.executed.erase w
      numbered := s.numbered ++ [op] } := by
    rw [WritePath.assign, h.enabled]
    rfl
  have hlt : ∀ e ∈ s.history ++ s.numbered, e.position < op.position :=
    fun e he => (h.bounded e he).trans_lt (head_lt_next s hroom)
  have hlogged : (s.assign w).logged = s.logged ++ [w] := by
    rw [hassign, WritePath.logged, WritePath.logged, ← List.append_assoc, List.map_append]
    rfl
  rw [hassign] at hlogged ⊢
  constructor
  · exact h.enabled
  · dsimp only
    rw [← List.append_assoc, List.pairwise_append]
    refine ⟨h.ascending, List.pairwise_singleton _ _, ?_⟩
    intro e he e' he'
    rw [List.mem_singleton.mp he']
    exact hlt e he
  · intro e he
    rw [← List.append_assoc] at he
    rcases List.mem_append.mp he with he | he
    · exact (hlt e he).le
    · rw [List.mem_singleton.mp he]
      exact le_rfl
  · dsimp only
    rw [← List.append_assoc, List.isChain_append]
    refine ⟨h.dense, List.isChain_singleton _, ?_⟩
    intro e he e' he'
    cases he'
    rw [hnext, h.newest e he]
  · intro e he
    dsimp only at he ⊢
    rw [← List.append_assoc, List.getLast?_concat] at he
    cases he
    rfl
  · rw [hlogged, List.append_assoc, List.singleton_append, replay_append]
    dsimp only
    rw [hharmless, ← replay_append]
    exact h.replays
  · rw [hlogged, List.append_assoc, List.singleton_append]
    exact ((List.perm_cons_erase hw).symm.append_left _).trans h.once
  · exact h.buffered

/-- The numbered write with the lowest position is the first. -/
theorem erase_lowest {ops : List ReplicationLogEntry} (hops : ops.Pairwise (·.position < ·.position))
    (hop : op ∈ ops) (hlow : ∀ e ∈ ops, op.position ≤ e.position) :
    ops = op :: ops.erase op := by
  rcases ops with _ | ⟨first, rest⟩
  · simp at hop
  · have hfirst : op = first := by
      rcases List.mem_cons.mp hop with heq | hrest
      · exact heq
      · have hlt := (List.pairwise_cons.mp hops).1 op hrest
        exact absurd (hlow first (by simp)) (not_le.mpr hlt)
    rw [hfirst, List.erase_cons_head]

theorem drop_append_buffer (history : List ReplicationLogEntry) (op : ReplicationLogEntry)
    {cap : ℕ} (hcap : 1 ≤ cap) :
    let log := history.drop (history.length - cap) ++ [op]
    log.drop (log.length - cap) = (history ++ [op]).drop ((history ++ [op]).length - cap) := by
  dsimp only
  rw [← List.drop_append_of_le_length (by omega), List.drop_drop]
  congr 1
  simp only [List.length_drop, List.length_append, List.length_singleton]
  omega

theorem Writing.append (h : Writing db s) (hop : op ∈ s.numbered)
    (hok : InLogOrder db s (.append op)) : Writing db (s.append op) := by
  have hnumbered := erase_lowest (List.pairwise_append.mp h.ascending).2.1 hop hok
  have hsame : (s.append op).history ++ (s.append op).numbered = s.history ++ s.numbered := by
    change (s.history ++ [op]) ++ s.numbered.erase op = _
    rw [List.append_assoc, List.singleton_append, ← hnumbered]
  have hlogged : (s.append op).logged = s.logged := by
    rw [WritePath.logged, hsame]
    rfl
  constructor
  · exact h.enabled
  · exact hsame ▸ h.ascending
  · exact hsame ▸ h.bounded
  · exact hsame ▸ h.dense
  · exact hsame ▸ h.newest
  · rw [hlogged]
    exact h.replays
  · rw [hlogged]
    exact h.once
  · dsimp only [WritePath.append]
    rw [h.buffered]
    exact drop_append_buffer _ _ (one_le_replicationLogBufferCap _)

theorem Writing.step (h : Writing db s) (hok : InLogOrder db s a) (hstep : s.step db a = some s') :
    Writing db s' := by
  obtain ⟨w, rfl, rfl⟩ | ⟨w, rfl, -, rfl⟩ | ⟨w, rfl, hw, rfl⟩ | ⟨op, rfl, hop, rfl⟩ |
    ⟨op, rfl, rfl⟩ | ⟨w, rfl, rfl⟩ | ⟨c, rfl, henabled, hseq, hepoch, rfl⟩ :=
      WritePath.step_cases hstep
  · exact ⟨h.enabled, h.ascending, h.bounded, h.dense, h.newest, h.replays, h.once, h.buffered⟩
  · exact h.execute hok
  · exact h.assign hw hok
  · exact h.append hop hok
  · exact h
  · exact ⟨h.enabled, h.ascending, h.bounded, h.dense, h.newest, h.replays.trans (Eq.symm hok),
      h.once, h.buffered⟩
  · refine ⟨henabled.trans h.enabled, h.ascending, ?_, h.dense, ?_, h.replays, h.once, h.buffered⟩
    · intro op hop
      refine (h.bounded op hop).trans ?_
      rw [Position.le_iff]
      dsimp only [WritePath.head]
      omega
    · intro op hop
      exact (h.newest op hop).trans hseq.symm

theorem keeps_writing (db : Database E) :
    Keeps (WritePath.step db) (InLogOrder db) (Writing db) :=
  fun _ _ _ h hok hstep => h.step hok hstep

end Invariant

/-- However client writes interleave, the log ascends, holds every successful write once and leads
to the engine, if the steps are taken in log order. -/
theorem primary_log_exact {E : Type*} {db : Database E} {engine : E} {cluster : ClusterStateModel}
    {logBufferCap : Option ℕ} (henabled : cluster.enabled = true) {steps : List WriteStep}
    (hmeets : Meets (WritePath.step db) (InLogOrder db) (.idle engine cluster logBufferCap) steps) :
    Always (WritePath.step db) (LogMatches db) (.idle engine cluster logBufferCap) steps :=
  (keeps_writing db).always (Writing.idle engine logBufferCap henabled) hmeets
    fun _ h => h.matches

section Sample

/-- A database that holds the value of one row, which every update replaces. -/
def sampleDatabase : Database String := ⟨fun _ w => (w.params, true), fun _ => false⟩

def sampleUpdate (value : String) : ClientWrite := ⟨"data.update", value⟩

/-- Two writes overlap and are numbered and appended in the order of their executions. -/
theorem primary_log_exact_sample :
    Always (WritePath.step sampleDatabase) (LogMatches sampleDatabase)
      (.idle "" (sampleServer "a").cluster none)
      [.accept (sampleUpdate "x"), .accept (sampleUpdate "y"), .execute (sampleUpdate "x"),
        .execute (sampleUpdate "y"), .assign (sampleUpdate "x"), .assign (sampleUpdate "y"),
        .append ⟨⟨0, 1⟩, "data.update", "x"⟩, .append ⟨⟨0, 2⟩, "data.update", "y"⟩] :=
  primary_log_exact rfl (by decide +kernel)

/-- Two updates of one row overlap. Numbered against the order of their executions, they lead to
another engine; appended against the order of their positions, they make the log descend. -/
theorem logged_out_of_order :
    (¬ Always (WritePath.step sampleDatabase) (LogMatches sampleDatabase)
      (.idle "" (sampleServer "a").cluster none)
      [.accept (sampleUpdate "x"), .accept (sampleUpdate "y"), .execute (sampleUpdate "x"),
        .execute (sampleUpdate "y"), .assign (sampleUpdate "y"), .assign (sampleUpdate "x"),
        .append ⟨⟨0, 1⟩, "data.update", "y"⟩, .append ⟨⟨0, 2⟩, "data.update", "x"⟩]) ∧
    ¬ Always (WritePath.step sampleDatabase) (LogMatches sampleDatabase)
      (.idle "" (sampleServer "a").cluster none)
      [.accept (sampleUpdate "x"), .accept (sampleUpdate "y"), .execute (sampleUpdate "x"),
        .execute (sampleUpdate "y"), .assign (sampleUpdate "x"), .assign (sampleUpdate "y"),
        .append ⟨⟨0, 2⟩, "data.update", "y"⟩, .append ⟨⟨0, 1⟩, "data.update", "x"⟩] := by
  constructor
  · intro h
    have hlast := (h _ [] (List.append_nil _).symm _ rfl).replays
    revert hlast
    decide +kernel
  · intro h
    have hlast := (h _ [] (List.append_nil _).symm _ rfl).ascending
    revert hlast
    decide +kernel

end Sample

end SkeinDB.Cluster
