import SkeinDB.Cluster.Replication
import SkeinDB.Format.Primitives
import SkeinDB.Transition.Runs

/-!
# Committed reads

A node stamps the rows that an operation writes with the milliseconds in which it executes, and
notes after the operation has its log position when that was. A committed read takes the noted time
of the newest committed operation and shows the rows as they were then. The time separates the
committed operations from the others as long as no two of them share a millisecond and each one is
noted before the next one executes.
-/
namespace SkeinDB.Cluster
open Consensus Format Transition

section Visibility
variable {R : Type*}

/-- A row of a table, with two traces that the engine does not keep: the operation that stamped it
and the operation that wrote its contents. A deletion stamps the row and keeps the contents. -/
structure RowEntry (R : Type*) where
  row : R
  deleted : Bool
  commitTsMs : ℕ
  stampedBy : ℕ
  writtenBy : ℕ

def rowVisibleAt (entry : RowEntry R) (asOfMs : Option ℕ) : Bool :=
  match asOfMs with
  | none => !entry.deleted
  | some ts =>
    if entry.commitTsMs = 0 then !entry.deleted
    else if entry.deleted then ts < entry.commitTsMs
    else entry.commitTsMs ≤ ts

theorem rowVisibleAt_live {entry : RowEntry R} {ts : ℕ} (hlive : entry.deleted = false)
    (h : rowVisibleAt entry (some ts) = true) : entry.commitTsMs ≤ ts := by
  simp only [rowVisibleAt, hlive, Bool.not_false, Bool.false_eq_true, if_false] at h
  split_ifs at h with hzero
  · omega
  · exact of_decide_eq_true h

theorem rowVisibleAt_deleted {entry : RowEntry R} {ts : ℕ} (hdeleted : entry.deleted = true)
    (h : rowVisibleAt entry (some ts) = true) : ts < entry.commitTsMs := by
  simp only [rowVisibleAt, hdeleted, Bool.not_true, if_true] at h
  split_ifs at h with hzero
  exact of_decide_eq_true h

theorem rowVisibleAt_hidden {entry : RowEntry R} {ts : ℕ} (hdeleted : entry.deleted = true)
    (h : rowVisibleAt entry (some ts) = false) : entry.commitTsMs ≤ ts := by
  simp only [rowVisibleAt, hdeleted, Bool.not_true, if_true] at h
  split_ifs at h with hzero
  · omega
  · exact not_lt.mp (of_decide_eq_false h)

/-- What a statement does to one row. A merge into an existing row leaves its stamp. -/
inductive RowChange (R : Type*) where
  | insert (row : R)
  | update (idx : ℕ) (row : R)
  | delete (idx : ℕ)
  | merge (idx : ℕ) (row : R)

def RowChange.isMerge : RowChange R → Bool
  | .merge _ _ => true
  | _ => false

def applyRowChange (op nowMs : ℕ) (rows : List (RowEntry R)) : RowChange R → List (RowEntry R)
  | .insert row => rows ++ [⟨row, false, nowMs, op, op⟩]
  | .update idx row => rows.modify idx fun entry =>
      if entry.deleted then entry else ⟨row, false, nowMs, op, op⟩
  | .delete idx => rows.modify idx fun entry =>
      if entry.deleted then entry
      else { entry with deleted := true, commitTsMs := nowMs, stampedBy := op }
  | .merge idx row => rows.modify idx fun entry => ⟨row, false, entry.commitTsMs, op, op⟩

/-- The rows after the changes of one operation, each at its own reading of the clock. -/
def applyRowChanges (op : ℕ) (rows : List (RowEntry R)) (changes : List (RowChange R × ℕ)) :
    List (RowEntry R) :=
  changes.foldl (fun rows change => applyRowChange op change.2 rows change.1) rows

/-- A row that an operation has stamped. -/
structure Touched (op : ℕ) (rows : List (RowEntry R)) (entry : RowEntry R) : Prop where
  stampedBy : entry.stampedBy = op
  live : entry.deleted = false → entry.writtenBy = op
  written : entry.writtenBy = op ∨ ∃ e ∈ rows, entry.writtenBy = e.writtenBy

theorem mem_of_mem_modify {α : Type*} {f : α → α} {a : α} {idx : ℕ} {as : List α}
    (h : a ∈ as.modify idx f) : a ∈ as ∨ ∃ b ∈ as, a = f b := by
  obtain ⟨i, hi⟩ := List.mem_iff_getElem?.mp h
  rw [List.getElem?_modify] at hi
  obtain ⟨b, hb, rfl⟩ := Option.map_eq_some_iff.mp hi
  have hmem := List.mem_of_getElem? hb
  split_ifs
  · exact .inr ⟨b, hmem, rfl⟩
  · exact .inl hmem

theorem mem_applyRowChange {op nowMs : ℕ} {rows : List (RowEntry R)} {change : RowChange R}
    {entry : RowEntry R} (hmerge : change.isMerge = false)
    (h : entry ∈ applyRowChange op nowMs rows change) :
    entry ∈ rows ∨ entry.commitTsMs = nowMs ∧ Touched op rows entry := by
  cases change with
  | insert row =>
    rcases List.mem_append.mp h with h | h
    · exact .inl h
    · rw [List.mem_singleton.mp h]
      exact .inr ⟨rfl, rfl, fun _ => rfl, .inl rfl⟩
  | update idx row =>
    rcases mem_of_mem_modify h with h | ⟨e, he, rfl⟩
    · exact .inl h
    · split_ifs
      · exact .inl he
      · exact .inr ⟨rfl, rfl, fun _ => rfl, .inl rfl⟩
  | delete idx =>
    rcases mem_of_mem_modify h with h | ⟨e, he, rfl⟩
    · exact .inl h
    · split_ifs
      · exact .inl he
      · exact .inr ⟨rfl, rfl, nofun, .inr ⟨e, he, rfl⟩⟩
  | merge idx row => simp [RowChange.isMerge] at hmerge

/-- A row after the changes of an operation was there before, or is stamped by one of them. -/
theorem mem_applyRowChanges {op : ℕ} {changes : List (RowChange R × ℕ)}
    (hmerge : ∀ change ∈ changes, change.1.isMerge = false) {rows : List (RowEntry R)}
    {entry : RowEntry R} (h : entry ∈ applyRowChanges op rows changes) :
    entry ∈ rows ∨ (∃ change ∈ changes, entry.commitTsMs = change.2) ∧ Touched op rows entry := by
  induction changes generalizing rows with
  | nil => exact .inl h
  | cons change changes ih =>
    obtain ⟨hfirst, hrest⟩ := List.forall_mem_cons.mp hmerge
    rcases ih hrest h with hmem | ⟨⟨later, hlater, hms⟩, htouched⟩
    · rcases mem_applyRowChange hfirst hmem with hmem | ⟨hms, htouched⟩
      · exact .inl hmem
      · exact .inr ⟨⟨change, List.mem_cons_self, hms⟩, htouched⟩
    · refine .inr ⟨⟨later, List.mem_cons_of_mem _ hlater, hms⟩, htouched.stampedBy,
        htouched.live, ?_⟩
      rcases htouched.written with hop | ⟨e, he, hwritten⟩
      · exact .inl hop
      · rcases mem_applyRowChange hfirst he with hmem | ⟨-, hfirst⟩
        · exact .inr ⟨e, hmem, hwritten⟩
        · rw [hwritten]
          exact hfirst.written

end Visibility

section Node

def replicationAppliedTimesCap : ℕ := 8192

/-- The time that a committed read looks back to: the one noted for the newest committed operation,
or else the millisecond before the oldest time noted. -/
def committedAsOf (commit : Position) (appliedOpTimes : List (Position × ℕ)) : Option ℕ :=
  match appliedOpTimes.reverse.find? fun t => t.1 ≤ commit with
  | some t => some t.2
  | none => appliedOpTimes.head?.map fun t => t.2 - 1

/-- The commit index that a read goes by: a primary computes it, a replica has adopted it. -/
def readCommitPosition (c : ClusterStateModel) : Position :=
  if c.localNodeId = c.primaryNodeId then clusterCommitPosition c else c.replication.commit

/-- A committed read between its locks: with an uncommitted tail and before it consults the noted
times, or with the time that it looks back to, `none` for a fresh read. -/
inductive CommittedRead where
  | tail (commit : Position)
  | asOf (commit : Position) (asOfMs : Option ℕ)
deriving DecidableEq

/-- Where the rows of a query come from. An index holds live rows only, and a join or a view is
read without regard to the time. -/
inductive ReadPath where
  | scan
  | index
  | join
  | view
deriving DecidableEq

/-- A node that executes operations and serves committed reads. The operations are numbered in the
order of their execution, and `position` and `noted` trace the log position of each and all times
noted for one. `inFlight` are the operations between execution and note. -/
structure ReadNode (R : Type*) where
  cluster : ClusterStateModel
  rows : List (RowEntry R)
  viewRows : List (R × ℕ)
  ops : ℕ
  position : ℕ → Option Position
  inFlight : List ℕ
  appliedOpTimes : List (Position × ℕ)
  noted : List (Position × ℕ)
  reads : List CommittedRead

/-- An operation executes on a primary or a replica, refreshes a view with these rows, gets a log
position on a primary or brings one along on a replica, and is noted with its time. `cluster` is
any change of the cluster state, by acknowledgements, elections or an adopted commit index. -/
inductive ReadStep (R : Type*) where
  | execute (changes : List (RowChange R × ℕ))
  | refreshView (rows : List R)
  | recordReplicationOp (op : ℕ)
  | noteAppliedReplication (op : ℕ) (position : Position)
  | noteTime (op : ℕ) (nowMs : ℕ)
  | cluster (c : ClusterStateModel)
  | restart
  | readPositions
  | readTimes (commit : Position)
  | select (commit : Position) (asOfMs : Option ℕ) (path : ReadPath)

namespace ReadNode
variable {R : Type*}

def start (cluster : ClusterStateModel) : ReadNode R where
  cluster := cluster
  rows := []
  viewRows := []
  ops := 0
  position := fun _ => none
  inFlight := []
  appliedOpTimes := []
  noted := []
  reads := []

def execute (s : ReadNode R) (changes : List (RowChange R × ℕ)) : ReadNode R :=
  { s with
    rows := applyRowChanges s.ops s.rows changes
    ops := s.ops + 1
    inFlight := s.ops :: s.inFlight }

def refreshView (s : ReadNode R) (rows : List R) : ReadNode R :=
  { s with
    viewRows := rows.map fun row => (row, s.ops)
    ops := s.ops + 1
    inFlight := s.ops :: s.inFlight }

def setPosition (s : ReadNode R) (op : ℕ) (position : Position) : ReadNode R :=
  { s with position := Function.update s.position op (some position) }

def nextHead (c : ClusterStateModel) : ClusterStateModel :=
  { c with
    replication := { c.replication with opSeq := saturatingAdd c.replication.opSeq 1 } }

def noteTime (s : ReadNode R) (op : ℕ) (position : Position) (nowMs : ℕ) : ReadNode R :=
  let times := s.appliedOpTimes ++ [(position, nowMs)]
  { s with
    inFlight := s.inFlight.erase op
    appliedOpTimes := times.drop (times.length - replicationAppliedTimesCap)
    noted := s.noted ++ [(position, nowMs)] }

/-- First part of `read_committed_as_of`, under the cluster lock. -/
def readPositions (c : ClusterStateModel) : CommittedRead :=
  let commit := readCommitPosition c
  if !c.enabled ∨ localPosition c ≤ commit then .asOf commit none else .tail commit

/-- The rows of the table or the view that a query gets to see, with what wrote each. -/
def selected (s : ReadNode R) (asOfMs : Option ℕ) : ReadPath → List (R × ℕ)
  | .scan => (s.rows.filter (rowVisibleAt · asOfMs)).map fun e => (e.row, e.writtenBy)
  | .index => (s.rows.filter fun e => !e.deleted && rowVisibleAt e asOfMs).map
      fun e => (e.row, e.writtenBy)
  | .join => (s.rows.filter (rowVisibleAt · none)).map fun e => (e.row, e.writtenBy)
  | .view => s.viewRows

/-- The deleted rows of the table that a query leaves out. -/
def leftOut (s : ReadNode R) (asOfMs : Option ℕ) : ReadPath → List (RowEntry R)
  | .scan => s.rows.filter fun e => e.deleted && !rowVisibleAt e asOfMs
  | .index => s.rows.filter (·.deleted)
  | .join => s.rows.filter (·.deleted)
  | .view => []

def step (s : ReadNode R) : ReadStep R → Option (ReadNode R)
  | .execute changes => some (s.execute changes)
  | .refreshView rows => some (s.refreshView rows)
  | .recordReplicationOp op =>
    if s.cluster.enabled ∧ op ∈ s.inFlight ∧ s.position op = none then
      let c := nextHead s.cluster
      some ({ s with cluster := c }.setPosition op ⟨c.leadershipEpoch, c.replication.opSeq⟩)
    else none
  | .noteAppliedReplication op position =>
    if op ∈ s.inFlight ∧ s.position op = none then
      some ({ s with cluster := noteAppliedReplication s.cluster position }.setPosition op position)
    else none
  | .noteTime op nowMs =>
    if op ∈ s.inFlight then (s.position op).map (s.noteTime op · nowMs) else none
  | .cluster c => if c.enabled = s.cluster.enabled then some { s with cluster := c } else none
  | .restart => some { s with inFlight := [], appliedOpTimes := [], reads := [] }
  | .readPositions => some { s with reads := readPositions s.cluster :: s.reads }
  | .readTimes commit =>
    if .tail commit ∈ s.reads then
      some { s with reads := .asOf commit (committedAsOf commit s.appliedOpTimes) :: s.reads }
    else none
  | .select commit asOfMs _ => if .asOf commit asOfMs ∈ s.reads then some s else none

end ReadNode

end Node

section Condition
variable {R : Type*}

def CommittedRead.isFresh : CommittedRead → Bool
  | .asOf _ none => true
  | _ => false

namespace ReadNode

def LoggedUpTo (s : ReadNode R) (op : ℕ) (p : Position) : Prop := ∃ q ∈ s.position op, q ≤ p

instance (s : ReadNode R) (op : ℕ) (p : Position) : Decidable (s.LoggedUpTo op p) :=
  inferInstanceAs (Decidable (∃ q ∈ s.position op, q ≤ p))

/-- Where a query may look while a tail is uncommitted. A row that was deleted since the time
looked back to is in sight with its contents, but an index has lost it. -/
def PathSeparates (s : ReadNode R) (commit : Position) (asOfMs : ℕ) : ReadPath → Prop
  | .scan => ∀ e ∈ s.rows, e.deleted = true → asOfMs < e.commitTsMs →
    s.LoggedUpTo e.writtenBy commit
  | .index => ∀ e ∈ s.rows, e.deleted = true → e.commitTsMs ≤ asOfMs
  | .join => False
  | .view => False

instance (s : ReadNode R) (commit : Position) (asOfMs : ℕ) :
    (path : ReadPath) → Decidable (s.PathSeparates commit asOfMs path)
  | .scan => inferInstanceAs (Decidable (∀ e ∈ s.rows, _))
  | .index => inferInstanceAs (Decidable (∀ e ∈ s.rows, _))
  | .join | .view => isFalse id

/-- The oldest noted operation executed in the millisecond noted for it, and every one with a
lower position is committed. -/
def NotedSince (s : ReadNode R) (commit : Position) (t : Position × ℕ) : Prop :=
  0 < t.2 ∧ (∀ op < s.ops, ∀ p ∈ s.position op, p < t.1 → p ≤ commit) ∧
    ∀ e ∈ s.rows, t.1 ∈ s.position e.stampedBy → t.2 ≤ e.commitTsMs

instance (s : ReadNode R) (commit : Position) (t : Position × ℕ) :
    Decidable (s.NotedSince commit t) :=
  inferInstanceAs (Decidable (_ ∧ _ ∧ _))

/-- Every operation executes in a later millisecond than those noted before, stamps what it writes,
and is noted before another one executes or gets a higher position. No operation is under way when
a read finds no tail, and none executes during such a read. A read with a tail finds a noted time
that separates it. -/
def Separates (s : ReadNode R) : ReadStep R → Prop
  | .execute changes =>
    (∀ change ∈ changes, change.1.isMerge = false ∧ ∀ t ∈ s.noted, t.2 < change.2) ∧
      ∀ read ∈ s.reads, read.isFresh = false
  | .refreshView _ => ∀ read ∈ s.reads, read.isFresh = false
  | .noteTime op _ => ∀ p ∈ s.position op, ∀ o < s.ops, s.LoggedUpTo o p
  | .readPositions => (CommittedRead.isFresh (readPositions s.cluster)) = true →
    ∀ op < s.ops, s.LoggedUpTo op (localPosition s.cluster)
  | .readTimes commit => (∃ t ∈ s.appliedOpTimes, t.1 ≤ commit) ∨
    ∃ t ∈ s.appliedOpTimes.head?, s.NotedSince commit t
  | .select commit (some asOfMs) path => s.PathSeparates commit asOfMs path
  | .select _ none _ => True
  | .recordReplicationOp _ => True
  | .noteAppliedReplication _ _ => True
  | .cluster _ => True
  | .restart => True

instance (s : ReadNode R) : (a : ReadStep R) → Decidable (s.Separates a)
  | .execute _ => inferInstanceAs (Decidable (_ ∧ _))
  | .refreshView _ => inferInstanceAs (Decidable (∀ read ∈ s.reads, _))
  | .noteTime op _ => inferInstanceAs (Decidable (∀ p ∈ s.position op, _))
  | .readPositions => inferInstanceAs (Decidable (_ → ∀ op < s.ops, _))
  | .readTimes _ => inferInstanceAs (Decidable (_ ∨ _))
  | .select commit (some asOfMs) path =>
    inferInstanceAs (Decidable (s.PathSeparates commit asOfMs path))
  | .select _ none _ | .recordReplicationOp _ | .noteAppliedReplication _ _ | .cluster _
  | .restart => isTrue trivial

/-- What a query returns was written by operations up to its commit index, and what it leaves out
as deleted was deleted by such. -/
def ReturnsCommitted (s : ReadNode R) : ReadStep R → Prop
  | .select commit asOfMs path =>
    (∀ r ∈ s.selected asOfMs path, s.LoggedUpTo r.2 commit) ∧
      ∀ e ∈ s.leftOut asOfMs path, s.LoggedUpTo e.stampedBy commit
  | _ => True

end ReadNode

end Condition

section Invariant
variable {R : Type*} {s s' : ReadNode R} {a : ReadStep R}

namespace ReadNode

theorem LoggedUpTo.mono {op : ℕ} {p q : Position} (h : s.LoggedUpTo op p) (hpq : p ≤ q) :
    s.LoggedUpTo op q := by
  obtain ⟨r, hr, hrp⟩ := h
  exact ⟨r, hr, hrp.trans hpq⟩

/-- An operation that gets a position had none. -/
theorem LoggedUpTo.setPosition {op o : ℕ} {p q : Position} (hnone : s.position op = none)
    (h : s.LoggedUpTo o p) : (s.setPosition op q).LoggedUpTo o p := by
  obtain ⟨r, hr, hrp⟩ := h
  refine ⟨r, ?_, hrp⟩
  have hne : o ≠ op := by
    rintro rfl
    simp [hnone] at hr
  change r ∈ Function.update s.position op (some q) o
  rw [Function.update_of_ne hne]
  exact hr

end ReadNode

structure Separated (s : ReadNode R) : Prop where
  enabled : s.cluster.enabled = true
  rows_lt : ∀ e ∈ s.rows, e.stampedBy < s.ops ∧ e.writtenBy < s.ops
  live : ∀ e ∈ s.rows, e.deleted = false → e.writtenBy = e.stampedBy
  view_lt : ∀ r ∈ s.viewRows, r.2 < s.ops
  stamped : ∀ e ∈ s.rows, ∀ t ∈ s.noted, e.commitTsMs ≤ t.2 → s.LoggedUpTo e.stampedBy t.1
  times : ∀ t ∈ s.appliedOpTimes, t ∈ s.noted
  fresh : ∀ commit, .asOf commit none ∈ s.reads → ∀ op < s.ops, s.LoggedUpTo op commit
  noted : ∀ commit ms, .asOf commit (some ms) ∈ s.reads → ∃ t ∈ s.noted, ms ≤ t.2
  past : ∀ commit ms, .asOf commit (some ms) ∈ s.reads →
    ∀ e ∈ s.rows, e.commitTsMs ≤ ms → s.LoggedUpTo e.stampedBy commit

theorem Separated.start {cluster : ClusterStateModel} (henabled : cluster.enabled = true) :
    Separated (.start cluster : ReadNode R) where
  enabled := henabled
  rows_lt := by simp [ReadNode.start]
  live := by simp [ReadNode.start]
  view_lt := by simp [ReadNode.start]
  stamped := by simp [ReadNode.start]
  times := by simp [ReadNode.start]
  fresh := by simp [ReadNode.start]
  noted := by simp [ReadNode.start]
  past := by simp [ReadNode.start]

theorem not_fresh_of_forall {reads : List CommittedRead}
    (h : ∀ read ∈ reads, read.isFresh = false) (commit : Position) :
    .asOf commit none ∉ reads := by
  intro hmem
  simpa [CommittedRead.isFresh] using h _ hmem

theorem Separated.execute (h : Separated s) {changes : List (RowChange R × ℕ)}
    (hok : s.Separates (.execute changes)) : Separated (s.execute changes) := by
  obtain ⟨hchanges, hfresh⟩ := hok
  have hcases : ∀ e ∈ (s.execute changes).rows, e ∈ s.rows ∨
      (∀ t ∈ s.noted, t.2 < e.commitTsMs) ∧ Touched s.ops s.rows e := by
    intro e he
    rcases mem_applyRowChanges (fun change hchange => (hchanges change hchange).1) he with
      hmem | ⟨⟨change, hchange, hms⟩, htouched⟩
    · exact .inl hmem
    · rw [hms]
      exact .inr ⟨(hchanges change hchange).2, htouched⟩
  constructor
  · exact h.enabled
  · intro e he
    change _ < s.ops + 1 ∧ _ < s.ops + 1
    rcases hcases e he with hmem | ⟨-, htouched⟩
    · have := h.rows_lt e hmem
      omega
    · have hstamped := htouched.stampedBy
      rcases htouched.written with hop | ⟨e', he', hwritten⟩
      · omega
      · have := h.rows_lt e' he'
        omega
  · intro e he hlive
    rcases hcases e he with hmem | ⟨-, htouched⟩
    · exact h.live e hmem hlive
    · rw [htouched.stampedBy, htouched.live hlive]
  · intro r hr
    exact (h.view_lt r hr).trans (Nat.lt_succ_self _)
  · intro e he t ht hms
    rcases hcases e he with hmem | ⟨hlater, -⟩
    · exact h.stamped e hmem t ht hms
    · exact absurd (hlater t ht) (not_lt.mpr hms)
  · exact h.times
  · intro commit hread
    exact absurd hread (not_fresh_of_forall hfresh commit)
  · exact h.noted
  · intro commit ms hread e he hms
    rcases hcases e he with hmem | ⟨hlater, -⟩
    · exact h.past commit ms hread e hmem hms
    · obtain ⟨t, ht, hmst⟩ := h.noted commit ms hread
      exact absurd (hlater t ht) (not_lt.mpr (hms.trans hmst))

theorem Separated.refreshView (h : Separated s) {rows : List R}
    (hok : s.Separates (.refreshView rows)) : Separated (s.refreshView rows) := by
  constructor
  · exact h.enabled
  · intro e he
    change _ < s.ops + 1 ∧ _ < s.ops + 1
    have := h.rows_lt e he
    omega
  · exact h.live
  · intro r hr
    obtain ⟨row, -, rfl⟩ := List.mem_map.mp hr
    exact Nat.lt_succ_self _
  · exact h.stamped
  · exact h.times
  · intro commit hread
    exact absurd hread (not_fresh_of_forall hok commit)
  · exact h.noted
  · exact h.past

theorem Separated.setPosition (h : Separated s) {op : ℕ} {p : Position}
    (hnone : s.position op = none) : Separated (s.setPosition op p) where
  enabled := h.enabled
  rows_lt := h.rows_lt
  live := h.live
  view_lt := h.view_lt
  stamped e he t ht hms := (h.stamped e he t ht hms).setPosition hnone
  times := h.times
  fresh commit hread o ho := (h.fresh commit hread o ho).setPosition hnone
  noted := h.noted
  past commit ms hread e he hms := (h.past commit ms hread e he hms).setPosition hnone

theorem Separated.setCluster (h : Separated s) {c : ClusterStateModel}
    (henabled : c.enabled = s.cluster.enabled) : Separated { s with cluster := c } :=
  ⟨henabled.trans h.enabled, h.rows_lt, h.live, h.view_lt, h.stamped, h.times, h.fresh, h.noted,
    h.past⟩

theorem Separated.noteTime (h : Separated s) {op nowMs : ℕ} {p : Position}
    (hall : ∀ o < s.ops, s.LoggedUpTo o p) : Separated (s.noteTime op p nowMs) := by
  constructor
  · exact h.enabled
  · exact h.rows_lt
  · exact h.live
  · exact h.view_lt
  · intro e he t ht hms
    rcases List.mem_append.mp ht with ht | ht
    · exact h.stamped e he t ht hms
    · rw [List.mem_singleton.mp ht]
      exact hall _ (h.rows_lt e he).1
  · intro t ht
    simp only [ReadNode.noteTime] at ht
    rcases List.mem_append.mp (List.mem_of_mem_drop ht) with ht | ht
    · exact List.mem_append_left _ (h.times t ht)
    · exact List.mem_append_right _ ht
  · exact h.fresh
  · intro commit ms hread
    obtain ⟨t, ht, hms⟩ := h.noted commit ms hread
    exact ⟨t, List.mem_append_left _ ht, hms⟩
  · exact h.past

theorem Separated.readPositions (h : Separated s) (hok : s.Separates .readPositions) :
    Separated { s with reads := ReadNode.readPositions s.cluster :: s.reads } := by
  refine ⟨h.enabled, h.rows_lt, h.live, h.view_lt, h.stamped, h.times, ?_, ?_, ?_⟩
  · intro commit hread
    rcases List.mem_cons.mp hread with heq | hread
    · have hfresh : (ReadNode.readPositions s.cluster).isFresh = true := by
        rw [← heq]
        rfl
      have hall : ∀ op < s.ops, s.LoggedUpTo op (localPosition s.cluster) := hok hfresh
      have hle : localPosition s.cluster ≤ commit := by
        rw [ReadNode.readPositions, h.enabled] at heq
        split_ifs at heq with hcond
        obtain rfl : commit = readCommitPosition s.cluster := by injection heq
        simpa using hcond
      exact fun op hop => (hall op hop).mono hle
    · exact h.fresh commit hread
  · intro commit ms hread
    rcases List.mem_cons.mp hread with heq | hread
    · rw [ReadNode.readPositions] at heq
      split_ifs at heq
      simp at heq
    · exact h.noted commit ms hread
  · intro commit ms hread
    rcases List.mem_cons.mp hread with heq | hread
    · rw [ReadNode.readPositions] at heq
      split_ifs at heq
      simp at heq
    · exact h.past commit ms hread

/-- The noted times separate what a tail leaves uncommitted. -/
theorem Separated.committedAsOf (h : Separated s) {commit : Position}
    (hok : s.Separates (.readTimes commit)) :
    ∃ ms, committedAsOf commit s.appliedOpTimes = some ms ∧ (∃ t ∈ s.noted, ms ≤ t.2) ∧
      ∀ e ∈ s.rows, e.commitTsMs ≤ ms → s.LoggedUpTo e.stampedBy commit := by
  rcases hfind : s.appliedOpTimes.reverse.find? fun t => t.1 ≤ commit with _ | t
  · have hnone : ∀ t ∈ s.appliedOpTimes, ¬ t.1 ≤ commit := by
      simpa using hfind
    rcases hok with ⟨t, ht, hcommit⟩ | ⟨t, ht, hpos, hbelow, hown⟩
    · exact absurd hcommit (hnone t ht)
    · have hnoted := h.times t (List.mem_of_mem_head? ht)
      refine ⟨t.2 - 1, ?_, ⟨t, hnoted, Nat.sub_le _ _⟩, ?_⟩
      · rw [Cluster.committedAsOf, hfind, Option.mem_def.mp ht]
        rfl
      · intro e he hms
        obtain ⟨p, hp, hle⟩ := h.stamped e he t hnoted (by omega)
        rcases hle.lt_or_eq with hlt | rfl
        · exact ⟨p, hp, hbelow e.stampedBy (h.rows_lt e he).1 p hp hlt⟩
        · have := hown e he hp
          omega
  · have hcommit : t.1 ≤ commit := by simpa using List.find?_some hfind
    have hnoted := h.times t (List.mem_reverse.mp (List.mem_of_find?_eq_some hfind))
    refine ⟨t.2, ?_, ⟨t, hnoted, le_rfl⟩, ?_⟩
    · rw [Cluster.committedAsOf, hfind]
    · exact fun e he hms => (h.stamped e he t hnoted hms).mono hcommit

theorem Separated.readTimes (h : Separated s) {commit : Position}
    (hok : s.Separates (.readTimes commit)) :
    Separated { s with
      reads := .asOf commit (Cluster.committedAsOf commit s.appliedOpTimes) :: s.reads } := by
  obtain ⟨ms, hasOf, hnoted, hpast⟩ := h.committedAsOf hok
  rw [hasOf]
  refine ⟨h.enabled, h.rows_lt, h.live, h.view_lt, h.stamped, h.times, ?_, ?_, ?_⟩
  · intro commit' hread
    rcases List.mem_cons.mp hread with heq | hread
    · simp at heq
    · exact h.fresh commit' hread
  · intro commit' ms' hread
    rcases List.mem_cons.mp hread with heq | hread
    · obtain ⟨rfl, rfl⟩ : commit' = commit ∧ ms' = ms := by simpa using heq
      exact hnoted
    · exact h.noted commit' ms' hread
  · intro commit' ms' hread
    rcases List.mem_cons.mp hread with heq | hread
    · obtain ⟨rfl, rfl⟩ : commit' = commit ∧ ms' = ms := by simpa using heq
      exact hpast
    · exact h.past commit' ms' hread

theorem keeps_separated :
    Keeps ReadNode.step (fun (s : ReadNode R) => s.Separates) Separated := by
  intro s a s' h hok hstep
  cases a with
  | execute changes =>
    cases hstep
    exact h.execute hok
  | refreshView rows =>
    cases hstep
    exact h.refreshView hok
  | recordReplicationOp op =>
    obtain ⟨⟨-, -, hnone⟩, hsome⟩ := Option.ite_none_right_eq_some.mp hstep
    cases hsome
    have hcluster : Separated { s with cluster := ReadNode.nextHead s.cluster } := h.setCluster rfl
    exact hcluster.setPosition hnone
  | noteAppliedReplication op p =>
    obtain ⟨⟨-, hnone⟩, hsome⟩ := Option.ite_none_right_eq_some.mp hstep
    cases hsome
    have hcluster : Separated { s with cluster := Cluster.noteAppliedReplication s.cluster p } :=
      h.setCluster rfl
    exact hcluster.setPosition hnone
  | noteTime op nowMs =>
    obtain ⟨-, hmap⟩ := Option.ite_none_right_eq_some.mp hstep
    obtain ⟨p, hp, rfl⟩ := Option.map_eq_some_iff.mp hmap
    exact h.noteTime (hok p hp)
  | cluster c =>
    obtain ⟨henabled, hsome⟩ := Option.ite_none_right_eq_some.mp hstep
    cases hsome
    exact h.setCluster henabled
  | restart =>
    cases hstep
    exact ⟨h.enabled, h.rows_lt, h.live, h.view_lt, h.stamped, nofun, nofun, nofun, nofun⟩
  | readPositions =>
    cases hstep
    exact h.readPositions hok
  | readTimes commit =>
    obtain ⟨-, hsome⟩ := Option.ite_none_right_eq_some.mp hstep
    cases hsome
    exact h.readTimes hok
  | select commit asOfMs path =>
    obtain ⟨-, hsome⟩ := Option.ite_none_right_eq_some.mp hstep
    cases hsome
    exact h

/-- A fresh read is of operations that are all committed. -/
theorem Separated.select_fresh (h : Separated s) {commit : Position} {path : ReadPath}
    (hread : .asOf commit none ∈ s.reads) :
    s.ReturnsCommitted (.select commit none path) := by
  have hall := h.fresh commit hread
  constructor
  · intro r hr
    have hlt : r.2 < s.ops := by
      cases path with
      | scan | index | join =>
        obtain ⟨e, he, rfl⟩ := List.mem_map.mp hr
        exact (h.rows_lt e (List.mem_of_mem_filter he)).2
      | view => exact h.view_lt r hr
    exact hall r.2 hlt
  · intro e he
    cases path with
    | scan | index | join => exact hall _ (h.rows_lt e (List.mem_of_mem_filter he)).1
    | view => simp [ReadNode.leftOut] at he

/-- A read of the past sees the rows that were written up to its commit index. -/
theorem Separated.select_past (h : Separated s) {commit : Position} {ms : ℕ} {path : ReadPath}
    (hread : .asOf commit (some ms) ∈ s.reads) (hpath : s.PathSeparates commit ms path) :
    s.ReturnsCommitted (.select commit (some ms) path) := by
  have hpast := h.past commit ms hread
  have hlive : ∀ e ∈ s.rows, e.deleted = false → rowVisibleAt e (some ms) = true →
      s.LoggedUpTo e.writtenBy commit := by
    intro e he hlive hvisible
    rw [h.live e he hlive]
    exact hpast e he (rowVisibleAt_live hlive hvisible)
  cases path with
  | scan =>
    constructor
    · intro r hr
      obtain ⟨e, hfilter, rfl⟩ := List.mem_map.mp hr
      obtain ⟨he, hvisible⟩ := List.mem_filter.mp hfilter
      rcases hdeleted : e.deleted with _ | _
      · exact hlive e he hdeleted hvisible
      · exact hpath e he hdeleted (rowVisibleAt_deleted hdeleted hvisible)
    · intro e hfilter
      obtain ⟨he, hboth⟩ := List.mem_filter.mp hfilter
      obtain ⟨hdeleted, hhidden⟩ : e.deleted = true ∧ rowVisibleAt e (some ms) = false := by
        simpa using hboth
      exact hpast e he (rowVisibleAt_hidden hdeleted hhidden)
  | index =>
    constructor
    · intro r hr
      obtain ⟨e, hfilter, rfl⟩ := List.mem_map.mp hr
      obtain ⟨he, hboth⟩ := List.mem_filter.mp hfilter
      obtain ⟨hnot, hvisible⟩ : e.deleted = false ∧ rowVisibleAt e (some ms) = true := by
        simpa using hboth
      exact hlive e he hnot hvisible
    · intro e hfilter
      obtain ⟨he, hdeleted⟩ := List.mem_filter.mp hfilter
      exact hpast e he (hpath e he hdeleted)
  | join => exact hpath.elim
  | view => exact hpath.elim

end Invariant

/-- A committed read returns the effect of committed operations only, in runs in which the noted
times separate the operations. -/
theorem committed_read {R : Type*} {cluster : ClusterStateModel} (henabled : cluster.enabled = true)
    {steps : List (ReadStep R)}
    (hmeets : Meets ReadNode.step (fun s => s.Separates) (.start cluster) steps) :
    EachStep ReadNode.step (fun s a _ => s.ReturnsCommitted a) (.start cluster) steps := by
  refine keeps_separated.eachStep (Separated.start henabled) hmeets ?_
  intro s a s' h hok hstep
  cases a with
  | select commit asOfMs path =>
    obtain ⟨hread, -⟩ := Option.ite_none_right_eq_some.mp hstep
    cases asOfMs with
    | none => exact h.select_fresh hread
    | some ms => exact h.select_past hread hok
  | _ => trivial

section Sample

/-- Two inserts on a primary, each noted in the millisecond in which it executes. After a replica
has acknowledged the first one, a committed read looks back to it. -/
def sampleReads (firstMs secondMs : ℕ) : List (ReadStep String) :=
  let c := ReadNode.nextHead (ReadNode.nextHead (sampleServer "a").cluster)
  [.execute [(.insert "x", firstMs)], .recordReplicationOp 0, .noteTime 0 firstMs,
    .execute [(.insert "y", secondMs)], .recordReplicationOp 1, .noteTime 1 secondMs,
    .cluster (recordHeartbeat c ⟨"b", 1, ⟨0, 1⟩, 0⟩ 9000), .readPositions, .readTimes ⟨0, 1⟩,
    .select ⟨0, 1⟩ (some firstMs) .scan]

theorem committed_read_sample :
    EachStep ReadNode.step (fun s a _ => s.ReturnsCommitted a)
      (.start (sampleServer "a").cluster) (sampleReads 10 11) :=
  committed_read rfl (by decide +kernel)

/-- The read returns the second insert, which is not committed, if it executes in the same
millisecond. -/
theorem uncommitted_read_sample :
    ¬ EachStep ReadNode.step (fun s a _ => s.ReturnsCommitted a)
      (.start (sampleServer "a").cluster) (sampleReads 10 10) := by
  intro h
  have hselect := (h [_, _, _, _, _, _, _, _, _] _ [] rfl _ _ rfl rfl).1 ("y", 1)
    (by decide +kernel)
  revert hselect
  decide +kernel

end Sample

end SkeinDB.Cluster
