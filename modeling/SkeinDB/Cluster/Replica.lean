import SkeinDB.Cluster.Replication

/-!
# What a replica has applied

A replica receives operations of several primaries, in any order and any number of times.
Within one term it applies a contiguous stretch of the writes of that term's primary, in log
order. A newer term is entered at whichever operation comes first, so the stretch need not
begin where the primary did, and nothing compares what the replica holds with the log of the
new primary.
-/
namespace SkeinDB.Cluster
open Consensus

/-- Operations numbered `start + 1`, `start + 2`, … in one term. -/
def Consecutive (term : ℕ) : ℕ → List ReplicationLogEntry → Prop
  | _, [] => True
  | start, op :: ops => op.position = ⟨term, start + 1⟩ ∧ Consecutive term (start + 1) ops

/-- The log of the primary of a term: what it held when it took over, all of older terms, and
the writes it recorded, numbered on from `start`. -/
structure PrimaryLog (term : ℕ) where
  base : List ReplicationLogEntry
  start : ℕ
  writes : List ReplicationLogEntry
  older : ∀ op ∈ base, op.position.term < term
  consecutive : Consecutive term start writes

def PrimaryLog.ops {term : ℕ} (log : PrimaryLog term) : List ReplicationLogEntry :=
  log.base ++ log.writes

/-- The log up to and including a position. -/
def PrimaryLog.upTo {term : ℕ} (log : PrimaryLog term) (p : Position) :
    List ReplicationLogEntry :=
  log.ops.filter (·.position ≤ p)

/-- The logs of the primaries of all terms. The first one starts from nothing. -/
structure PrimaryLogs where
  log : (term : ℕ) → PrimaryLog term
  first_base : (log 0).base = []
  first_start : (log 0).start = 0

def ofTerm (term : ℕ) (ops : List ReplicationLogEntry) : List ReplicationLogEntry :=
  ops.filter (·.position.term = term)

def olderThan (term : ℕ) (ops : List ReplicationLogEntry) : List ReplicationLogEntry :=
  ops.filter (·.position.term < term)

section Consecutive
variable {term start : ℕ} {ops : List ReplicationLogEntry}

theorem Consecutive.position_getElem? (h : Consecutive term start ops) {i : ℕ}
    {op : ReplicationLogEntry} (hop : ops[i]? = some op) :
    op.position = ⟨term, start + 1 + i⟩ := by
  induction ops generalizing start i with
  | nil => simp at hop
  | cons e ops ih =>
    cases i with
    | zero =>
      obtain rfl := Option.some.inj hop
      exact h.1
    | succ i =>
      rw [ih h.2 (by simpa using hop)]
      congr 1
      omega

theorem Consecutive.exists_getElem? (h : Consecutive term start ops) {op : ReplicationLogEntry}
    (hop : op ∈ ops) : ∃ i, ops[i]? = some op ∧ op.position = ⟨term, start + 1 + i⟩ := by
  obtain ⟨i, hi⟩ := List.mem_iff_getElem?.mp hop
  exact ⟨i, hi, h.position_getElem? hi⟩

theorem Consecutive.filter_le (h : Consecutive term start ops) (s : ℕ) :
    ops.filter (·.position ≤ ⟨term, s⟩) = ops.take (s - start) := by
  induction ops generalizing start with
  | nil => simp
  | cons e ops ih =>
    have hle : e.position ≤ ⟨term, s⟩ ↔ start + 1 ≤ s := by
      rw [h.1, Position.le_iff]
      simp
    by_cases hs : start + 1 ≤ s
    · obtain ⟨k, hk⟩ : ∃ k, s - start = k + 1 := ⟨s - start - 1, by omega⟩
      have hrest := ih h.2
      rw [show s - (start + 1) = k by omega] at hrest
      simp [hle, hs, hk, hrest]
    · have hrest := ih h.2
      rw [show s - (start + 1) = 0 by omega, List.take_zero] at hrest
      rw [show s - start = 0 by omega, List.take_zero]
      simp [hle, hs, hrest]

end Consecutive

section PrimaryLog
variable {term : ℕ} (log : PrimaryLog term)

theorem PrimaryLog.upTo_eq (s : ℕ) :
    log.upTo ⟨term, s⟩ = log.base ++ log.writes.take (s - log.start) := by
  have hbase : log.base.filter (·.position ≤ ⟨term, s⟩) = log.base := by
    rw [List.filter_eq_self]
    intro op hop
    have := log.older op hop
    simp only [decide_eq_true_eq, Position.le_iff]
    omega
  rw [PrimaryLog.upTo, PrimaryLog.ops, List.filter_append, hbase, log.consecutive.filter_le]

/-- The part of the log before one of its own writes. -/
theorem PrimaryLog.before_eq {i : ℕ} {op : ReplicationLogEntry}
    (hop : op.position = ⟨term, log.start + 1 + i⟩) :
    log.ops.filter (·.position < op.position) = log.base ++ log.writes.take i := by
  have hiff : ∀ e ∈ log.ops, decide (e.position < op.position) =
      decide (e.position ≤ ⟨term, log.start + i⟩) := by
    intro e _
    rw [decide_eq_decide, hop, Position.lt_iff, Position.le_iff]
    dsimp only
    omega
  rw [List.filter_congr hiff]
  change log.upTo _ = _
  rw [log.upTo_eq, Nat.add_sub_cancel_left]

end PrimaryLog

section Invariant

/-- The position a replica records. -/
def AppState.position (st : AppState) : Position := st.cluster.replication.lastApplied

/-- What holds of a replica however it was fed. Of the current term it has applied the writes
from the `entry`-th to the one at its recorded position. -/
structure Applied (logs : PrimaryLogs) (st : AppState) : Prop where
  sorted : st.engine.Pairwise (·.position < ·.position)
  below : ∀ op ∈ st.engine, op.position ≤ st.position
  newest : (st.engine.getLast?.map (·.position)).getD 0 = st.position
  stretch : ∀ term, ofTerm term st.engine <:+: (logs.log term).writes
  current : ∃ entry count, entry ≤ count ∧ (logs.log st.position.term).start + count =
    st.position.seq ∧ (st.position.term = 0 → entry = 0) ∧
    ofTerm st.position.term st.engine =
      ((logs.log st.position.term).writes.take count).drop entry

variable {logs : PrimaryLogs} {st : AppState} {op : ReplicationLogEntry}

theorem drop_take_infix (ops : List ReplicationLogEntry) (entry count : ℕ) :
    (ops.take count).drop entry <:+: ops :=
  (List.drop_suffix entry (ops.take count)).isInfix.trans (List.take_prefix count ops).isInfix

theorem ofTerm_concat (term : ℕ) (ops : List ReplicationLogEntry) (op : ReplicationLogEntry) :
    ofTerm term (ops ++ [op]) =
      if op.position.term = term then ofTerm term ops ++ [op] else ofTerm term ops := by
  unfold ofTerm
  split_ifs with h <;> simp [List.filter_append, h]

/-- The next operation of the current term. -/
theorem Applied.next (h : Applied logs st) (hop : op ∈ (logs.log op.position.term).writes)
    (hterm : op.position.term = st.position.term) (hseq : op.position.seq = st.position.seq + 1) :
    ∃ entry count, entry ≤ count ∧
      (logs.log op.position.term).start + count = op.position.seq ∧
      (op.position.term = 0 → entry = 0) ∧ ofTerm op.position.term (st.engine ++ [op]) =
        ((logs.log op.position.term).writes.take count).drop entry := by
  obtain ⟨entry, count, hle, hstart, hzero, hseg⟩ := h.current
  rw [← hterm] at hstart hzero hseg
  obtain ⟨i, hi, hpos⟩ := (logs.log _).consecutive.exists_getElem? hop
  have hicount : i = count := by
    have := congrArg Position.seq hpos
    dsimp only at this
    omega
  subst hicount
  refine ⟨entry, i + 1, by omega, by omega, hzero, ?_⟩
  have hlen : i < (logs.log op.position.term).writes.length := (List.getElem?_eq_some_iff.mp hi).1
  rw [ofTerm_concat, if_pos rfl, hseg, List.take_add_one, hi]
  rw [List.drop_append_of_le_length]
  · rfl
  · rw [List.length_take]
    omega

/-- The first operation of a newer term. -/
theorem Applied.enter (h : Applied logs st) (hop : op ∈ (logs.log op.position.term).writes)
    (hterm : st.position.term < op.position.term) :
    ∃ entry count, entry ≤ count ∧
      (logs.log op.position.term).start + count = op.position.seq ∧
      (op.position.term = 0 → entry = 0) ∧ ofTerm op.position.term (st.engine ++ [op]) =
        ((logs.log op.position.term).writes.take count).drop entry := by
  obtain ⟨i, hi, hpos⟩ := (logs.log _).consecutive.exists_getElem? hop
  have hseq := congrArg Position.seq hpos
  dsimp only at hseq
  have hnone : ofTerm op.position.term st.engine = [] := by
    rw [ofTerm, List.filter_eq_nil_iff]
    intro e he
    have := Position.term_le (h.below e he)
    simp only [decide_eq_true_eq]
    omega
  have hlen : i < (logs.log op.position.term).writes.length := (List.getElem?_eq_some_iff.mp hi).1
  refine ⟨i, i + 1, by omega, by omega, by omega, ?_⟩
  rw [ofTerm_concat, if_pos rfl, hnone, List.take_add_one, hi]
  rw [List.drop_append_of_le_length]
  · rw [List.drop_of_length_le (by rw [List.length_take]; omega)]
    rfl
  · rw [List.length_take]
    omega

theorem Applied.handleReplicated (h : Applied logs st)
    (hop : op ∈ (logs.log op.position.term).writes) :
    Applied logs (handleReplicated st op) := by
  by_cases happly : decideReplicationApply st.cluster.replication.lastApplied op.position = .apply
  · rw [handleReplicated_of_apply happly]
    have hnew : st.position < op.position := lt_of_decideReplicationApply happly
    rw [decideReplicationApply_apply] at happly
    have hcurrent : ∃ entry count, entry ≤ count ∧
        (logs.log op.position.term).start + count = op.position.seq ∧
        (op.position.term = 0 → entry = 0) ∧ ofTerm op.position.term (st.engine ++ [op]) =
          ((logs.log op.position.term).writes.take count).drop entry := by
      rcases happly with hnewer | ⟨hterm, hseq⟩
      · exact h.enter hop hnewer
      · exact h.next hop hterm hseq
    refine ⟨?_, ?_, by simp [AppState.position, noteAppliedReplication], ?_, hcurrent⟩
    · rw [List.pairwise_append]
      refine ⟨h.sorted, List.pairwise_singleton _ _, ?_⟩
      intro e he e' he'
      rw [List.mem_singleton.mp he']
      exact lt_of_le_of_lt (h.below e he) hnew
    · intro e he
      change e.position ≤ op.position
      rcases List.mem_append.mp he with he | he
      · exact (h.below e he).trans hnew.le
      · rw [List.mem_singleton.mp he]
    · intro term
      by_cases hterm : op.position.term = term
      · subst hterm
        obtain ⟨entry, count, -, -, -, hseg⟩ := hcurrent
        change ofTerm _ (st.engine ++ [op]) <:+: _
        rw [hseg]
        exact drop_take_infix _ _ _
      · change ofTerm _ (st.engine ++ [op]) <:+: _
        rw [ofTerm_concat, if_neg hterm]
        exact h.stretch term
  · rw [handleReplicated_of_skip happly]
    exact h

/-- A replica that has applied nothing. -/
structure Fresh (st : AppState) : Prop where
  engine : st.engine = []
  position : st.position = 0

theorem Fresh.applied (h : Fresh st) : Applied logs st where
  sorted := by simp [h.engine]
  below := by simp [h.engine]
  newest := by simp [h.engine, h.position]
  stretch := by simp [h.engine, ofTerm]
  current := by
    refine ⟨0, 0, le_rfl, ?_, fun _ => rfl, by simp [h.engine, ofTerm]⟩
    rw [h.position]
    simp [logs.first_start]

theorem Applied.foldl (h : Applied logs st) {ops : List ReplicationLogEntry}
    (hops : ∀ op ∈ ops, op ∈ (logs.log op.position.term).writes) :
    Applied logs (ops.foldl SkeinDB.Cluster.handleReplicated st) := by
  induction ops generalizing st with
  | nil => exact h
  | cons op ops ih =>
    exact ih (h.handleReplicated (hops op (by simp))) (fun e he => hops e (by simp [he]))

end Invariant

section Exactness
variable {logs : PrimaryLogs} {st : AppState}

/-- The operations of older terms come before those of the newest. -/
theorem olderThan_append_ofTerm {ops : List ReplicationLogEntry} {term : ℕ}
    (hsorted : ops.Pairwise (·.position < ·.position))
    (hbound : ∀ op ∈ ops, op.position.term ≤ term) :
    ops = olderThan term ops ++ ofTerm term ops := by
  induction ops with
  | nil => rfl
  | cons op ops ih =>
    obtain ⟨hfirst, hrest⟩ := List.pairwise_cons.mp hsorted
    have hih := ih hrest (fun e he => hbound e (by simp [he]))
    by_cases hop : op.position.term < term
    · have hne : op.position.term ≠ term := by omega
      rw [olderThan, ofTerm] at hih ⊢
      simp only [List.filter_cons, hop, hne, decide_true, decide_false, if_true,
        List.cons_append, List.cons.injEq, true_and]
      simpa using hih
    · have heq : op.position.term = term := by
        have := hbound op (by simp)
        omega
      -- from here on every operation is of the newest term
      have hall : ∀ e ∈ op :: ops, e.position.term = term := by
        intro e he
        rcases List.mem_cons.mp he with rfl | he'
        · exact heq
        · have h1 := Position.term_le (hfirst e he').le
          have h2 := hbound e he
          omega
      have holder : olderThan term (op :: ops) = [] := by
        rw [olderThan, List.filter_eq_nil_iff]
        intro e he
        simp [hall e he]
      have hnew : ofTerm term (op :: ops) = op :: ops := by
        rw [ofTerm, List.filter_eq_self]
        intro e he
        simp [hall e he]
      rw [holder, hnew, List.nil_append]

/-- A replica with nothing of its recorded term has applied nothing at all. -/
theorem Applied.nil_of_ofTerm_nil (h : Applied logs st)
    (hnil : ofTerm st.position.term st.engine = []) : st.engine = [] ∧ st.position = 0 := by
  have hnewest := h.newest
  rcases hlast : st.engine.getLast? with _ | op
  · rw [hlast] at hnewest
    exact ⟨List.getLast?_eq_none_iff.mp hlast, hnewest.symm⟩
  · rw [hlast] at hnewest
    have hop : op ∈ ofTerm st.position.term st.engine := by
      rw [ofTerm, List.mem_filter]
      exact ⟨List.mem_of_getLast? hlast, by simp [← hnewest]⟩
    rw [hnil] at hop
    simp at hop

/-- The replica holds exactly the primary's log up to its position if and only if, when it
entered the term, it held exactly the part of that log before the operation it entered at. -/
theorem Applied.exact_iff (h : Applied logs st) :
    st.engine = (logs.log st.position.term).upTo st.position ↔
      ∀ op, (ofTerm st.position.term st.engine).head? = some op →
        olderThan st.position.term st.engine =
          (logs.log st.position.term).ops.filter (·.position < op.position) := by
  obtain ⟨entry, count, hle, hstart, -, hseg⟩ := h.current
  have hupTo : (logs.log st.position.term).upTo st.position =
      (logs.log st.position.term).base ++ (logs.log st.position.term).writes.take count := by
    have := (logs.log st.position.term).upTo_eq st.position.seq
    rwa [← hstart, Nat.add_sub_cancel_left, hstart] at this
  rcases hhead : ofTerm st.position.term st.engine with _ | ⟨first, rest⟩
  · obtain ⟨hengine, hposition⟩ := h.nil_of_ofTerm_nil hhead
    have hcount : count = 0 := by
      rw [hposition] at hstart
      simp only [Position.zero_term, Position.zero_seq, logs.first_start] at hstart
      omega
    have hempty : (logs.log st.position.term).upTo st.position = [] := by
      rw [hupTo, hcount, hposition]
      simp [logs.first_base]
    simp [hengine, hempty]
  · have hget : ((logs.log st.position.term).writes.take count)[entry]? = some first := by
      rw [hseg] at hhead
      simpa using congrArg List.head? hhead
    rw [List.getElem?_take] at hget
    split_ifs at hget with hentry
    have hbefore := (logs.log st.position.term).before_eq
      ((logs.log st.position.term).consecutive.position_getElem? hget)
    have htake : (logs.log st.position.term).writes.take count =
        (logs.log st.position.term).writes.take entry ++ ofTerm st.position.term st.engine := by
      rw [hseg]
      have := List.take_append_drop entry ((logs.log st.position.term).writes.take count)
      rw [List.take_take, min_eq_left hle] at this
      exact this.symm
    have hsplit := olderThan_append_ofTerm h.sorted
      (fun op hop => Position.term_le (h.below op hop))
    simp only [List.head?_cons, Option.some.injEq, forall_eq']
    rw [hbefore, hupTo, htake, ← List.append_assoc]
    nth_rewrite 1 [hsplit]
    exact List.append_left_inj _

/-- In the first term the replica always holds exactly the primary's log. -/
theorem Applied.exact_of_first (h : Applied logs st) (hterm : st.position.term = 0) :
    st.engine = (logs.log st.position.term).upTo st.position := by
  rw [h.exact_iff]
  intro op hop
  obtain ⟨entry, count, -, -, hentry, hseg⟩ := h.current
  rw [hentry hterm, List.drop_zero] at hseg
  rw [hseg, List.head?_take] at hop
  split_ifs at hop with hcount
  have hbefore := (logs.log st.position.term).before_eq (i := 0)
    ((logs.log st.position.term).consecutive.position_getElem? (by rwa [← List.head?_eq_getElem?]))
  rw [hbefore, List.take_zero, List.append_nil]
  rw [hterm, logs.first_base]
  simp [olderThan]

end Exactness

/-- However operations of any number of primaries are delivered, lost, repeated and reordered,
a replica has applied a strictly increasing sequence of them that ends at its recorded position
and has, of each term, a contiguous stretch of that primary's writes. It is exactly the
primary's log up to that position in the first term, and in a later term if and only if the
replica entered the term with exactly the part of that log before its entry. -/
theorem replica_applied {logs : PrimaryLogs} {st₀ : AppState} (hfresh : Fresh st₀)
    {ops : List ReplicationLogEntry} (hops : ∀ op ∈ ops, op ∈ (logs.log op.position.term).writes) :
    let st := ops.foldl handleReplicated st₀
    let log := logs.log st.position.term
    st.engine.Pairwise (·.position < ·.position) ∧
    (st.engine.getLast?.map (·.position)).getD 0 = st.position ∧
    (∀ term, ofTerm term st.engine <:+: (logs.log term).writes) ∧
    (st.position.term = 0 → st.engine = log.upTo st.position) ∧
    (st.engine = log.upTo st.position ↔
      ∀ op, (ofTerm st.position.term st.engine).head? = some op →
        olderThan st.position.term st.engine = log.ops.filter (·.position < op.position)) := by
  have hempty : Applied logs st₀ := hfresh.applied
  have h := hempty.foldl hops
  exact ⟨h.sorted, h.newest, h.stretch, h.exact_of_first, h.exact_iff⟩

section Sample

def sampleOp (term seq : ℕ) : ReplicationLogEntry := ⟨⟨term, seq⟩, "data.insert", "{}"⟩

/-- Two primaries: the second takes over with the only write of the first, and writes twice. -/
def sampleLog : (term : ℕ) → PrimaryLog term
  | 0 => ⟨[], 0, [sampleOp 0 1], by simp, by simp [Consecutive, sampleOp]⟩
  | 1 => ⟨[sampleOp 0 1], 0, [sampleOp 1 1, sampleOp 1 2], by simp [sampleOp],
      by simp [Consecutive, sampleOp]⟩
  | _ + 2 => ⟨[], 0, [], by simp, trivial⟩

def sampleLogs : PrimaryLogs := ⟨sampleLog, rfl, rfl⟩

theorem sampleServer_fresh (n : NodeId) : Fresh (sampleServer n) := ⟨rfl, rfl⟩

/-- Both logs in order, with two repetitions that are skipped. -/
theorem replica_applied_sample :
    let ops := [sampleOp 0 1, sampleOp 1 1, sampleOp 1 1, sampleOp 1 2, sampleOp 0 1]
    let st := ops.foldl handleReplicated (sampleServer "b")
    st.position = ⟨1, 2⟩ ∧ st.engine.Pairwise (·.position < ·.position) ∧
      ∀ term, ofTerm term st.engine <:+: (sampleLogs.log term).writes := by
  have h := @replica_applied sampleLogs _ (sampleServer_fresh "b")
    [sampleOp 0 1, sampleOp 1 1, sampleOp 1 1, sampleOp 1 2, sampleOp 0 1] (by decide)
  exact ⟨by decide, h.1, h.2.2.1⟩

/-- A replica that sees only the second write of the second primary records its position and
has neither of the two operations before it. -/
theorem replica_hole :
    let st := [sampleOp 1 2].foldl handleReplicated (sampleServer "b")
    Fresh (sampleServer "b") ∧
      (∀ op ∈ [sampleOp 1 2], op ∈ (sampleLogs.log op.position.term).writes) ∧
      st.position = ⟨1, 2⟩ ∧ st.engine ≠ (sampleLogs.log 1).upTo ⟨1, 2⟩ :=
  ⟨sampleServer_fresh "b", by decide, by decide, by decide⟩

end Sample

end SkeinDB.Cluster
