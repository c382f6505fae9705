import SkeinDB.Changes.Sidecar
import SkeinDB.Transition.Runs

/-!
# Crashes between and within the writes of the logs

The engine logs changes, compacts the logs and crashes: between its operations, between two
writes of a compaction, or after any byte of the appends of a change. What `open` then makes of the
snapshots and the sidecars is compared with the records whose appends were completed.
-/
namespace SkeinDB.Changes
open SkeinDB.Codec SkeinDB.Tables SkeinDB.Transition

/-- The records whose appends were completed, in their order. -/
structure Ledger where
  changes : List ChangeEvent := []
  forensic : List ForensicRecord := []

structure LogSystem where
  logs : Logs
  disk : LogDisk := {}
  ledger : Ledger := {}

inductive LogStep
  | emit (now ts : ℕ) (c : Change)
  | compact
  | auditVerify
  | crash
  | crashEmitting (now ts : ℕ) (c : Change) (written : ℕ)
  | crashCompacting (done : ℕ)

section Run
variable (fmt : LogFormats)

/-- A record counts once all its bytes are among those written. -/
def Ledger.add (ledger : Ledger) (event : ChangeEvent) (record : ForensicRecord) (written : ℕ) :
    Ledger where
  changes := ledger.changes ++ if (logFrame fmt.event event).length ≤ written then [event] else []
  forensic := ledger.forensic ++
    if (logFrame fmt.record record).length ≤ written - (logFrame fmt.event event).length then
      [record] else []

namespace LogSystem

/-- The process starts again on the files that the crash left. -/
def reopen (s : LogSystem) (disk : LogDisk) : LogSystem where
  logs := openLogs fmt s.logs.log.cdcRetentionEvents s.logs.log.retention_pos disk
  disk := disk
  ledger := s.ledger

/-- The bytes that the appends of a change write. -/
def emitted (s : LogSystem) (now ts : ℕ) (c : Change) : ℕ :=
  (logFrame fmt.event (s.logs.changeEvent now c)).length +
    (logFrame fmt.record (s.logs.changeRecord fmt now ts c)).length

def record (s : LogSystem) (now ts : ℕ) (c : Change) (written : ℕ) : LogSystem :=
  { s with
    ledger := s.ledger.add fmt (s.logs.changeEvent now c) (s.logs.changeRecord fmt now ts c)
      written }

def step (s : LogSystem) : LogStep → Option LogSystem
  | .emit now ts c => some
      { s.record fmt now ts c (s.emitted fmt now ts c) with
        logs := s.logs.emitChange fmt now ts c
        disk := s.disk.appendChange fmt (s.logs.changeEvent now c)
          (s.logs.changeRecord fmt now ts c) }
  | .compact => some
      { s with disk := compactLogs s.logs (compactSteps s.logs).length s.disk }
  | .auditVerify => some
      { s with
        disk := if (s.logs.auditVerify fmt).ok then persistForensic s.logs s.disk else s.disk }
  | .crash => some (s.reopen fmt s.disk)
  | .crashEmitting now ts c written => some
      ((s.record fmt now ts c written).reopen fmt (s.disk.tearChange fmt
        (s.logs.changeEvent now c) (s.logs.changeRecord fmt now ts c) written))
  | .crashCompacting done => some (s.reopen fmt (compactLogs s.logs done s.disk))

def fresh (retention : ℕ) (hpos : 0 < retention) : LogSystem where
  logs := openLogs fmt retention hpos {}

/-- The records of the change read back, the counters are not exhausted, and no byte is appended
to a sidecar of which the reader leaves bytes unread. -/
structure Appendable (s : LogSystem) (now ts : ℕ) (c : Change) (written : ℕ) : Prop where
  event : Readable fmt.event (s.logs.changeEvent now c)
  record : Readable fmt.record (s.logs.changeRecord fmt now ts c)
  changeSeq : s.logs.log.changeSeq + 1 < 2 ^ 64
  forensicNextId : s.logs.forensicNextId + 1 < 2 ^ 64
  changesFlog : (logFrame fmt.event (s.logs.changeEvent now c)).take written ≠ [] →
    unread fmt.event s.disk.changesFlog = none
  forensicFlog : (logFrame fmt.record (s.logs.changeRecord fmt now ts c)).take
      (written - (logFrame fmt.event (s.logs.changeEvent now c)).length) ≠ [] →
    unread fmt.record s.disk.forensicFlog = none

def Admissible (s : LogSystem) : LogStep → Prop
  | .emit now ts c => s.Appendable fmt now ts c (s.emitted fmt now ts c)
  | .crashEmitting now ts c written => s.Appendable fmt now ts c written
  | _ => True

/-- The files hold each completed record that is retained once and in its order, and each
completed forensic record once, in one hash chain. -/
structure Merges (s : LogSystem) : Prop where
  changes : (s.reopen fmt s.disk).logs.log.changes =
    s.ledger.changes.drop (s.ledger.changes.length - s.logs.log.cdcRetentionEvents)
  ascending : s.ledger.changes.Pairwise (·.seq < ·.seq)
  forensic : (s.reopen fmt s.disk).logs.forensicChain = s.ledger.forensic
  forensicAscending : s.ledger.forensic.Pairwise (·.id < ·.id)
  chain : ((s.reopen fmt s.disk).logs.auditVerify fmt).ok = true

end LogSystem

/-- The completed records are numbered from one on, and the forensic ones form a chain. -/
structure Ledger.Sound (ledger : Ledger) : Prop where
  changes : ledger.changes.map (·.seq) = List.range' 1 ledger.changes.length
  changesFit : ledger.changes.length < 2 ^ 64
  forensic : ledger.forensic.map (·.id) = List.range' 1 ledger.forensic.length
  forensicFit : ledger.forensic.length + 1 < 2 ^ 64
  chain : auditFrom fmt forensicGenesisHash ledger.forensic 0 = none

/-- The engine holds the completed records. -/
structure Logs.Hold (logs : Logs) (ledger : Ledger) : Prop where
  changes : logs.log.changes =
    ledger.changes.drop (ledger.changes.length - logs.log.cdcRetentionEvents)
  changeSeq : logs.log.changeSeq = ledger.changes.length
  forensic : logs.forensicChain = ledger.forensic
  nextId : logs.forensicNextId = ledger.forensic.length + 1

/-- The files hold the completed records. -/
structure LogDisk.Hold (disk : LogDisk) (retention : ℕ) (ledger : Ledger) : Prop where
  changes : Covers (sidecar fmt.event) (· - retention) ledger.changes
    (snapshotEvents disk.changes) disk.changesFlog
  forensic : Covers (sidecar fmt.record) (fun _ => 0) ledger.forensic
    (snapshotChain disk.forensicChain).1 disk.forensicFlog
  nextId : (snapshotChain disk.forensicChain).2 = (snapshotChain disk.forensicChain).1.length + 1

variable {fmt} {ledger : Ledger} {logs : Logs} {disk : LogDisk} {retention : ℕ}

theorem trim_drop {α : Type*} {history : List α} {m : ℕ} (hm : m ≤ history.length) :
    (history.drop (m - retention)).drop ((history.drop (m - retention)).length - retention) =
      history.drop (history.length - retention) := by
  rw [List.drop_drop, List.length_drop]
  congr 1
  omega

theorem nextId_foldl (records : List ForensicRecord) {n : ℕ}
    (hids : records.map (·.id) = List.range' n records.length)
    (hfit : n + records.length < 2 ^ 64) :
    records.foldl (fun nextId rec => max nextId ((rec.id + 1) % 2 ^ 64)) n =
      n + records.length := by
  induction records generalizing n with
  | nil => rfl
  | cons rec records ih =>
    rw [List.map_cons, List.length_cons, List.range'_succ] at hids
    obtain ⟨hid, htail⟩ := List.cons.inj hids
    rw [List.length_cons] at hfit
    rw [List.foldl_cons, hid, Nat.mod_eq_of_lt (by omega), max_eq_right (by omega),
      ih htail (by omega), List.length_cons]
    omega

theorem Ledger.Sound.loadForensic (hsound : ledger.Sound fmt) (h : disk.Hold fmt retention ledger) :
    loadForensic fmt disk = (ledger.forensic, ledger.forensic.length + 1) := by
  obtain ⟨-, -, hmerge⟩ := h.forensic.merge hsound.forensic fun _ => Nat.zero_le _
  rw [List.drop_zero, mergeTail] at hmerge
  have hids := hsound.forensic
  have hfit := hsound.forensicFit
  rw [← hmerge] at hids hfit
  have hnewer := nextId_foldl _ (numbered_right hids) (by rw [List.length_append] at hfit; omega)
  rw [← h.nextId] at hnewer
  refine Prod.ext hmerge (hnewer.trans ?_)
  rw [h.nextId, ← hmerge, List.length_append]
  omega

/-- What the files hold is what the engine holds once it has opened them. -/
theorem openLogs_hold (hsound : ledger.Sound fmt) (hpos : 0 < retention)
    (h : disk.Hold fmt retention ledger) : (openLogs fmt retention hpos disk).Hold ledger := by
  obtain ⟨m, hm, hmerge⟩ := h.changes.merge hsound.changes fun m => by omega
  have hchanges : (openLogs fmt retention hpos disk).log.changes =
      ledger.changes.drop (ledger.changes.length - retention) := by
    have hload : (openLogs fmt retention hpos disk).log.changes =
        trimRetainedChangeLog retention (mergeTail (·.seq) (snapshotEvents disk.changes)
          ((sidecar fmt.event).scan disk.changesFlog).records) := rfl
    rw [hload, hmerge]
    exact trim_drop hm
  have hcut : ledger.changes.length - retention ≤ ledger.changes.length - 1 := by omega
  have hlast := last_of_numbered hsound.changes le_rfl hcut
  rw [List.take_length, ← hchanges] at hlast
  exact ⟨hchanges, hlast, congrArg Prod.fst (hsound.loadForensic h),
    congrArg Prod.snd (hsound.loadForensic h)⟩

/-- A record that refers to the head of the chain and bears its own hash lengthens the chain. -/
theorem auditFrom_concat {rec : ForensicRecord} (chain : List ForensicRecord) {prevHash : String}
    {idx : ℕ} (hchain : auditFrom fmt prevHash chain idx = none)
    (hprev : rec.prevHash = headHash Forensic.ForensicRecord.hash prevHash chain)
    (hhash : fmt.recordHash rec.prevHash rec.toForensicEvent = rec.hash) :
    auditFrom fmt prevHash (chain ++ [rec]) idx = none := by
  induction chain generalizing prevHash idx with
  | nil =>
    have hhead : rec.prevHash = prevHash := hprev
    rw [List.nil_append, auditFrom, if_neg (not_not.mpr hhead), if_neg (not_not.mpr hhash),
      auditFrom]
  | cons first chain ih =>
    rw [List.cons_append, auditFrom]
    rw [auditFrom] at hchain
    split_ifs at hchain ⊢
    exact ih hchain (hprev.trans headHash_cons)

section Append
variable {now ts written : ℕ} {c : Change} {s : LogSystem}

theorem LogSystem.Appendable.event_seq (happend : s.Appendable fmt now ts c written)
    (hlogs : s.logs.Hold s.ledger) :
    (s.logs.changeEvent now c).seq = s.ledger.changes.length + 1 := by
  have hseq : (s.logs.changeEvent now c).seq = (s.logs.log.changeSeq + 1) % 2 ^ 64 := rfl
  rw [hseq, Nat.mod_eq_of_lt happend.changeSeq, hlogs.changeSeq]

theorem Ledger.Sound.add (hsound : s.ledger.Sound fmt) (hlogs : s.logs.Hold s.ledger)
    (happend : s.Appendable fmt now ts c written) :
    (s.record fmt now ts c written).ledger.Sound fmt where
  changes := numbered_append hsound.changes (happend.event_seq hlogs) _
  changesFit := by
    have hfit := happend.changeSeq
    rw [hlogs.changeSeq] at hfit
    dsimp only [LogSystem.record, Ledger.add]
    rw [List.length_append]
    split <;> simp only [List.length_singleton, List.length_nil] <;> omega
  forensic := numbered_append hsound.forensic hlogs.nextId _
  forensicFit := by
    have hfit := happend.forensicNextId
    rw [hlogs.nextId] at hfit
    dsimp only [LogSystem.record, Ledger.add]
    rw [List.length_append]
    split <;> simp only [List.length_singleton, List.length_nil] <;> omega
  chain := by
    dsimp only [LogSystem.record, Ledger.add]
    split
    · refine auditFrom_concat _ hsound.chain ?_ rfl
      rw [← hlogs.forensic]
      rfl
    · rw [List.append_nil]
      exact hsound.chain

/-- The appends of a change, cut after any byte, leave files that hold what was completed. -/
theorem LogDisk.Hold.tear (h : s.disk.Hold fmt retention s.ledger)
    (happend : s.Appendable fmt now ts c written) :
    (s.disk.tearChange fmt (s.logs.changeEvent now c) (s.logs.changeRecord fmt now ts c)
      written).Hold fmt retention (s.record fmt now ts c written).ledger where
  changes := h.changes.append happend.event written happend.changesFlog
  forensic := h.forensic.append happend.record _ happend.forensicFlog
  nextId := h.nextId

/-- An engine that goes on has the completed records too. -/
theorem Logs.Hold.emit (h : s.logs.Hold s.ledger)
    (happend : s.Appendable fmt now ts c (s.emitted fmt now ts c)) :
    (s.logs.emitChange fmt now ts c).Hold
      (s.record fmt now ts c (s.emitted fmt now ts c)).ledger := by
  have hchanges : (s.record fmt now ts c (s.emitted fmt now ts c)).ledger.changes =
      s.ledger.changes ++ [s.logs.changeEvent now c] :=
    congrArg (s.ledger.changes ++ ·) (if_pos (Nat.le_add_right _ _))
  have hforensic : (s.record fmt now ts c (s.emitted fmt now ts c)).ledger.forensic =
      s.ledger.forensic ++ [s.logs.changeRecord fmt now ts c] :=
    congrArg (s.ledger.forensic ++ ·) (if_pos (Nat.le_sub_of_add_le' le_rfl))
  have hseq := happend.event_seq h
  have hid := happend.forensicNextId
  constructor
  · have hkept : (s.logs.emitChange fmt now ts c).log.cdcRetentionEvents =
        s.logs.log.cdcRetentionEvents := rfl
    rw [hchanges, hkept, ← ChangeLog.drop_concat_trim, ← h.changes]
    rfl
  · rw [hchanges, List.length_append, List.length_singleton, ← hseq]
    rfl
  · rw [hforensic, ← h.forensic]
    rfl
  · rw [hforensic, List.length_append, List.length_singleton, ← h.nextId]
    exact min_eq_left (by rw [u64Max]; omega)

end Append

/-- The appends of a change are those of a crash that comes after them. -/
theorem appendChange_eq (disk : LogDisk) (event : ChangeEvent) (record : ForensicRecord) :
    disk.appendChange fmt event record = disk.tearChange fmt event record
      ((logFrame fmt.event event).length + (logFrame fmt.record record).length) := by
  rw [LogDisk.appendChange, LogDisk.tearChange, Nat.add_sub_cancel_left,
    List.take_of_length_le (Nat.le_add_right _ _), List.take_of_length_le le_rfl]
  rfl

section Compact

theorem LogDisk.Hold.persistChanges (h : disk.Hold fmt logs.log.cdcRetentionEvents ledger)
    (hlogs : logs.Hold ledger) :
    (persistChanges logs disk).Hold fmt logs.log.cdcRetentionEvents ledger where
  changes := by
    have hevents : snapshotEvents (Changes.persistChanges logs disk).changes =
        logs.log.changes := rfl
    rw [hevents, hlogs.changes]
    exact h.changes.rewrite
  forensic := h.forensic
  nextId := h.nextId

theorem snapshotChain_persist (hlogs : logs.Hold ledger) :
    snapshotChain (persistForensic logs disk).forensicChain =
      (ledger.forensic, ledger.forensic.length + 1) := by
  have hchain : snapshotChain (persistForensic logs disk).forensicChain =
      (logs.forensicChain, max logs.forensicNextId 1) := rfl
  rw [hchain, hlogs.forensic, hlogs.nextId, max_eq_left (Nat.le_add_left 1 _)]

theorem LogDisk.Hold.persistForensic (h : disk.Hold fmt retention ledger)
    (hlogs : logs.Hold ledger) : (persistForensic logs disk).Hold fmt retention ledger where
  changes := h.changes
  forensic := by
    rw [snapshotChain_persist hlogs]
    exact h.forensic.rewrite
  nextId := by rw [snapshotChain_persist hlogs]

/-- Wherever a compaction is cut, the files hold what they held. -/
theorem LogDisk.Hold.compact (h : disk.Hold fmt logs.log.cdcRetentionEvents ledger)
    (hlogs : logs.Hold ledger) (done : ℕ) :
    (compactLogs logs done disk).Hold fmt logs.log.cdcRetentionEvents ledger := by
  have hevents := h.persistChanges hlogs
  have hchain := hevents.persistForensic hlogs
  have hchanges : snapshotEvents (Changes.persistChanges logs disk).changes =
      ledger.changes.drop (ledger.changes.length - logs.log.cdcRetentionEvents) := hlogs.changes
  rcases done with _ | _ | _ | _ | done
  · exact h
  · exact hevents
  · exact hchain
  · exact ⟨hchanges ▸ covers_whole, hchain.forensic, hchain.nextId⟩
  · have hforensic := congrArg Prod.fst (@snapshotChain_persist _ logs
      (Changes.persistChanges logs disk) hlogs)
    have hall : compactLogs logs (done + 4) disk =
        { Changes.persistForensic logs (Changes.persistChanges logs disk) with
          changesFlog := []
          forensicFlog := [] } := by
      rw [compactLogs, List.take_of_length_le (Nat.le_add_left 4 done)]
      rfl
    rw [hall]
    exact ⟨hchanges ▸ covers_whole, hforensic ▸ covers_whole, hchain.nextId⟩

end Compact

namespace LogSystem
variable (fmt)

structure Inv (s : LogSystem) : Prop where
  sound : s.ledger.Sound fmt
  logs : s.logs.Hold s.ledger
  disk : s.disk.Hold fmt s.logs.log.cdcRetentionEvents s.ledger

variable {fmt} {s : LogSystem}

theorem Inv.reopen (h : s.Inv fmt) {disk : LogDisk}
    (hdisk : disk.Hold fmt s.logs.log.cdcRetentionEvents s.ledger) :
    (s.reopen fmt disk).Inv fmt where
  sound := h.sound
  logs := openLogs_hold h.sound s.logs.log.retention_pos hdisk
  disk := hdisk

theorem Inv.merges (h : s.Inv fmt) : s.Merges fmt := by
  have hopen := (h.reopen h.disk).logs
  refine ⟨hopen.changes, pairwise_of_numbered h.sound.changes, hopen.forensic,
    pairwise_of_numbered h.sound.forensic, ?_⟩
  rw [AuditReport.ok, Logs.auditVerify, hopen.forensic]
  exact congrArg (fun found => (found.map (·.1)).isNone) h.sound.chain

theorem keeps_inv : Keeps (step fmt) (Admissible fmt) (Inv fmt) := by
  intro s a s' h hsafe hstep
  cases a with
  | emit now ts c =>
    cases hstep
    have hdisk := h.disk.tear hsafe
    exact ⟨h.sound.add h.logs hsafe, h.logs.emit hsafe, by rw [appendChange_eq]; exact hdisk⟩
  | compact =>
    cases hstep
    exact ⟨h.sound, h.logs, h.disk.compact h.logs _⟩
  | auditVerify =>
    cases hstep
    refine ⟨h.sound, h.logs, ?_⟩
    dsimp only
    split
    · exact h.disk.persistForensic h.logs
    · exact h.disk
  | crash =>
    cases hstep
    exact h.reopen h.disk
  | crashEmitting now ts c written =>
    cases hstep
    have hsound := h.sound.add h.logs hsafe
    have hdisk := h.disk.tear hsafe
    exact ⟨hsound, openLogs_hold hsound s.logs.log.retention_pos hdisk, hdisk⟩
  | crashCompacting done =>
    cases hstep
    exact h.reopen (h.disk.compact h.logs done)

theorem fresh_inv (hpos : 0 < retention) : (fresh fmt retention hpos).Inv fmt := by
  have hsound : Ledger.Sound fmt {} :=
    ⟨rfl, by norm_num, rfl, by norm_num, rfl⟩
  have hdisk : LogDisk.Hold fmt {} retention {} :=
    ⟨covers_nil (Nat.zero_sub _), covers_nil rfl, rfl⟩
  exact ⟨hsound, openLogs_hold hsound hpos hdisk, hdisk⟩

end LogSystem

end Run

/-- In every run in which no byte is appended behind a torn record and all records read back,
the snapshots and sidecars hold the completed records after every step. -/
theorem append_log_merge (fmt : LogFormats) (retention : ℕ) (hpos : 0 < retention)
    (steps : List LogStep)
    (hsteps : Meets (LogSystem.step fmt) (LogSystem.Admissible fmt) (.fresh fmt retention hpos)
      steps) :
    Always (LogSystem.step fmt) (LogSystem.Merges fmt) (.fresh fmt retention hpos) steps :=
  LogSystem.keeps_inv.always (LogSystem.fresh_inv hpos) hsteps fun _ h => h.merges

def sampleInsert (n : ℕ) : Change where
  db := "shop"
  table := "orders"
  op := "insert"
  pk := some [.i64 n]
  after := some fun column => if column = "id" then some (.i64 n) else none

def utf8 (text : String) : Bytes := text.toUTF8.toList

/-- The text of the `n`-th insert, logged first and at the time `n`. -/
def sampleEventText (n : ℕ) : Bytes :=
  utf8 ("\x7b\"seq\":1,\"db\":\"shop\",\"table\":\"orders\",\"op\":\"insert\"," ++
    "\"pk\":[\x7b\"t\":\"i64\",\"v\":" ++ toString n ++ "\x7d]," ++
    "\"after\":\x7b\"id\":\x7b\"t\":\"i64\",\"v\":" ++ toString n ++ "\x7d\x7d," ++
    "\"commit_ts_ms\":" ++ toString n ++ ",\"lsn\":1\x7d")

def sampleRecord (n : ℕ) : ForensicRecord where
  id := 1
  tsMs := n
  db := "shop"
  table := "orders"
  op := "insert"
  pk := some [.i64 n]
  changeSeq := 1
  prevHash := forensicGenesisHash
  hash := "00"

def sampleRecordText (n : ℕ) : Bytes :=
  utf8 ("\x7b\"id\":1,\"ts_ms\":" ++ toString n ++ ",\"db\":\"shop\",\"table\":\"orders\"," ++
    "\"op\":\"insert\",\"pk\":[\x7b\"t\":\"i64\",\"v\":" ++ toString n ++ "\x7d]," ++
    "\"change_seq\":1,\"prev_hash\":\"genesis\",\"hash\":\"00\"\x7d")

/-- The texts of the first two inserts. -/
def sampleLogFormats : LogFormats where
  event := {
    toVec := fun event => some (sampleEventText event.commitTsMs)
    fromSlice := fun bytes => ([1, 2].find? fun n => sampleEventText n == bytes).map
      fun n => (sampleInsert n).event 1 n }
  record := {
    toVec := fun record => some (sampleRecordText record.tsMs)
    fromSlice := fun bytes => ([1, 2].find? fun n => sampleRecordText n == bytes).map
      sampleRecord }
  recordHash _ _ := "00"

theorem sampleEvent_readable (n : ℕ) (hn : n = 1 ∨ n = 2) :
    Readable sampleLogFormats.event ((sampleInsert n).event 1 n) := by
  refine ⟨sampleEventText n, rfl, ?_, ?_⟩
  · rcases hn with rfl | rfl <;> decide +kernel
  · have hfind : ([1, 2].find? fun k => sampleEventText k == sampleEventText n) = some n := by
      rcases hn with rfl | rfl <;> decide +kernel
    exact congrArg (Option.map fun k => (sampleInsert k).event 1 k) hfind

theorem sampleRecord_readable (n : ℕ) (hn : n = 1 ∨ n = 2) :
    Readable sampleLogFormats.record (sampleRecord n) := by
  refine ⟨sampleRecordText n, rfl, ?_, ?_⟩
  · rcases hn with rfl | rfl <;> decide +kernel
  · have hfind : ([1, 2].find? fun k => sampleRecordText k == sampleRecordText n) = some n := by
      rcases hn with rfl | rfl <;> decide +kernel
    exact congrArg (Option.map sampleRecord) hfind

theorem sampleAppendable {s : LogSystem} (n written : ℕ) (hn : n = 1 ∨ n = 2)
    (hseq : s.logs.log.changeSeq = 0) (hid : s.logs.forensicNextId = 1)
    (hchain : s.logs.forensicChain.length = 0) (hchanges : s.disk.changesFlog = [])
    (hforensic : s.disk.forensicFlog = []) :
    s.Appendable sampleLogFormats n n (sampleInsert n) written := by
  have hevent : s.logs.changeEvent n (sampleInsert n) = (sampleInsert n).event 1 n := by
    rw [Logs.changeEvent, hseq]
    rfl
  have hrecord : s.logs.changeRecord sampleLogFormats n n (sampleInsert n) = sampleRecord n := by
    rw [Logs.changeRecord, Logs.forensicRecord, Logs.forensicEvent, ChangeLog.emitChange, hseq, hid,
      List.length_eq_zero_iff.mp hchain]
    rfl
  constructor
  · exact hevent ▸ sampleEvent_readable n hn
  · exact hrecord ▸ sampleRecord_readable n hn
  · rw [hseq]
    norm_num
  · rw [hid]
    norm_num
  · exact fun _ => by rw [hchanges]; rfl
  · exact fun _ => by rw [hforensic]; rfl

/-- The first insert is torn by a crash. -/
def sampleTear : LogStep := .crashEmitting 1 1 (sampleInsert 1) 10

def sampleEmit : LogStep := .emit 2 2 (sampleInsert 2)

theorem sampleTear_compacted : ∃ s, run (LogSystem.step sampleLogFormats)
    (.fresh sampleLogFormats 4096 (by decide)) [sampleTear, .compact] = some s ∧
      s.logs.log.changeSeq = 0 ∧ s.logs.forensicNextId = 1 ∧ s.logs.forensicChain.length = 0 ∧
      s.disk.changesFlog = [] ∧ s.disk.forensicFlog = [] :=
  ⟨_, rfl, by decide +kernel, by decide +kernel, by decide +kernel, rfl, rfl⟩

theorem append_log_merge_sample :
    Always (LogSystem.step sampleLogFormats) (LogSystem.Merges sampleLogFormats)
      (.fresh sampleLogFormats 4096 (by decide)) [sampleTear, .compact, sampleEmit] := by
  refine append_log_merge _ _ _ _ ⟨?_, ?_⟩
  · exact sampleAppendable 1 10 (.inl rfl) (by decide +kernel) rfl rfl rfl rfl
  intro s hs
  refine ⟨trivial, fun s' hs' => ⟨?_, fun _ _ => trivial⟩⟩
  obtain ⟨compacted, hrun, hseq, hid, hchain, hchanges, hforensic⟩ := sampleTear_compacted
  rw [run_cons, Option.mem_def.mp hs, Option.bind_some, run_cons, Option.mem_def.mp hs'] at hrun
  cases hrun
  exact sampleAppendable 2 _ (.inr rfl) hseq hid hchain hchanges hforensic

/-- An insert that is logged behind a torn one is gone at the next open. -/
theorem append_log_loses : ∃ s, run (LogSystem.step sampleLogFormats)
    (.fresh sampleLogFormats 4096 (by decide)) [sampleTear, sampleEmit, .crash] = some s ∧
      s.ledger.changes.map (·.seq) = [1] ∧ s.logs.log.changes.map (·.seq) = [] ∧
      s.logs.forensicChain.map (·.id) = [1] ∧ ¬s.Merges sampleLogFormats := by
  refine ⟨_, rfl, by decide +kernel, by decide +kernel, by decide +kernel, fun h => ?_⟩
  have hchanges := congrArg (List.map (·.seq)) h.changes
  revert hchanges
  decide +kernel

end SkeinDB.Changes
