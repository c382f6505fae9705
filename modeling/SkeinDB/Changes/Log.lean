import SkeinDB.Codec.Journal
import SkeinDB.Tables.State
import SkeinDB.Transition.Cursor

/-!
# The change log

`skeindb/src/engine.rs`: every change of a row gets the next sequence number and is appended to a
log of which the newest events are retained.
-/
namespace SkeinDB.Changes
open SkeinDB.Tables SkeinDB.Transition

structure ChangeEvent where
  seq : ℕ
  db : String
  table : String
  op : String
  pk : Option (List Lit) := none
  before : Option RowObject := none
  after : Option RowObject := none
  queryId : Option String := none
  etag : Option String := none
  commitTsMs : ℕ := 0
  lsn : Option ℕ := none

/-- What a statement reports of one row. -/
structure Change where
  db : String
  table : String
  op : String
  pk : Option (List Lit) := none
  before : Option RowObject := none
  after : Option RowObject := none

/-- The number of events that are retained is at least one. -/
structure ChangeLog where
  changes : List ChangeEvent := []
  changeSeq : ℕ := 0
  cdcRetentionEvents : ℕ
  retention_pos : 0 < cdcRetentionEvents

def Change.event (c : Change) (seq now : ℕ) : ChangeEvent where
  seq := seq
  db := c.db
  table := c.table
  op := c.op
  pk := c.pk
  before := c.before
  after := c.after
  commitTsMs := now
  lsn := some seq

def trimRetainedChangeLog (retention : ℕ) (changes : List ChangeEvent) : List ChangeEvent :=
  changes.drop (changes.length - retention)

namespace ChangeLog

def emitChange (log : ChangeLog) (now : ℕ) (c : Change) : ChangeLog :=
  let seq := (log.changeSeq + 1) % 2 ^ 64
  { log with
    changes := trimRetainedChangeLog log.cdcRetentionEvents (log.changes ++ [c.event seq now])
    changeSeq := seq }

def currentCdcEarliestOffset (log : ChangeLog) : ℕ := (log.changes.head?.map (·.seq)).getD 0

/-- All events that were ever logged are numbered from one on, and the log holds the newest. -/
structure Retains (log : ChangeLog) (history : List ChangeEvent) : Prop where
  numbered : history.map (·.seq) = List.range' 1 history.length
  last : log.changeSeq = history.length
  fits : history.length < 2 ^ 64
  newest : log.changes = history.drop (history.length - log.cdcRetentionEvents)

variable {log : ChangeLog} {history : List ChangeEvent} {c : Change} {now : ℕ}

theorem Retains.sorted (h : log.Retains history) : history.Pairwise (·.seq < ·.seq) :=
  Codec.pairwise_of_numbered h.numbered

theorem Retains.seq_eq (h : log.Retains history) {i : ℕ} (hi : i < history.length) :
    (history.get ⟨i, hi⟩).seq = i + 1 :=
  Codec.seq_of_numbered h.numbered hi

theorem Retains.seq_le (h : log.Retains history) {e : ChangeEvent} (he : e ∈ history) :
    1 ≤ e.seq ∧ e.seq ≤ log.changeSeq := by
  obtain ⟨i, rfl⟩ := List.get_of_mem he
  rw [h.seq_eq i.isLt, h.last]
  omega

theorem drop_concat_trim (history : List ChangeEvent) (e : ChangeEvent) (retention : ℕ) :
    trimRetainedChangeLog retention (history.drop (history.length - retention) ++ [e]) =
      (history ++ [e]).drop ((history ++ [e]).length - retention) := by
  rw [trimRetainedChangeLog, ← List.drop_append_of_le_length (Nat.sub_le _ _), List.drop_drop]
  congr 1
  rw [List.length_drop, List.length_append, List.length_singleton]
  omega

theorem Retains.emit (h : log.Retains history) (hfits : history.length + 1 < 2 ^ 64) :
    (log.emitChange now c).Retains (history ++ [c.event (history.length + 1) now]) where
  numbered := by
    rw [List.map_append, h.numbered, List.length_append, List.length_singleton,
      List.range'_1_concat]
    exact congrArg (fun n => List.range' 1 history.length ++ [n]) (Nat.add_comm _ _)
  last := by
    rw [emitChange, h.last, Nat.mod_eq_of_lt hfits, List.length_append, List.length_singleton]
  fits := by
    rw [List.length_append, List.length_singleton]
    exact hfits
  newest := by
    rw [emitChange, h.last, Nat.mod_eq_of_lt hfits]
    dsimp only
    rw [h.newest]
    exact drop_concat_trim history _ _

/-- The first event of the log follows those that are gone. -/
theorem Retains.earliest (h : log.Retains history) : log.currentCdcEarliestOffset =
    if history = [] then 0 else history.length - log.cdcRetentionEvents + 1 := by
  rw [currentCdcEarliestOffset, h.newest]
  rcases hhistory : history with _ | ⟨e, es⟩
  · simp
  · have hpos := log.retention_pos
    have hlt : (e :: es).length - log.cdcRetentionEvents < (e :: es).length := by
      rw [List.length_cons]
      omega
    subst hhistory
    rw [if_neg (by simp), List.head?_drop, List.getElem?_eq_getElem hlt]
    exact h.seq_eq hlt

theorem Retains.mem_changes (h : log.Retains history) {e : ChangeEvent} (he : e ∈ history) :
    e ∈ log.changes ↔ history.length - log.cdcRetentionEvents < e.seq := by
  obtain ⟨i, rfl⟩ := List.get_of_mem he
  rw [h.seq_eq i.isLt, h.newest, List.mem_drop_iff_getElem]
  constructor
  · rintro ⟨j, hj, hget⟩
    have hseq := h.seq_eq (i := history.length - log.cdcRetentionEvents + j) (by omega)
    have hsame := congrArg ChangeEvent.seq hget
    rw [← List.get_eq_getElem (i := ⟨_, by omega⟩), hseq, h.seq_eq i.isLt] at hsame
    omega
  · intro hlt
    have hi := i.isLt
    refine ⟨i - (history.length - log.cdcRetentionEvents), by omega, ?_⟩
    have hidx : history.length - log.cdcRetentionEvents +
        ((i : ℕ) - (history.length - log.cdcRetentionEvents)) = i := by omega
    simp [hidx]

end ChangeLog

end SkeinDB.Changes
