import SkeinDB.Changes.Log
import SkeinDB.Forensic.Chain

/-!
# The change log and the forensic chain on disk

`skeindb/src/engine.rs`: both logs are kept as a snapshot file and as an append-only sidecar of
length-prefixed JSON records. `load_changes_best_effort` and `load_forensic_best_effort` merge the
two at open, and `compact_change_forensic_logs` rewrites the snapshots and removes the sidecars.
-/
namespace SkeinDB.Changes
open SkeinDB.Codec SkeinDB.Tables
open SkeinDB.Forensic (ForensicEvent)

/-- The JSON text of the values of a type, where `serde_json` can write one and read it. -/
structure JsonCodec (α : Type*) where
  toVec : α → Option Bytes
  fromSlice : Bytes → Option α

/-- Why the reader of a sidecar stops. -/
inductive Unread
  | short
  | torn
  | malformed

section Sidecar
variable {α : Type*} (json : JsonCodec α)

/-- What `append_log_record` writes of a record: nothing where it returns early. -/
def logFrame (record : α) : Bytes :=
  match json.toVec record with
  | none => []
  | some bytes => if bytes.length < 2 ^ 32 then leBytes 4 bytes.length ++ bytes else []

def appendLogRecord (file : Bytes) (record : α) : Bytes := file ++ logFrame json record

/-- One round of the loop of `read_log_records`. -/
def readLogFrame (bytes : Bytes) : Except Unread (α × Bytes) :=
  if bytes.length < 4 then .error .short
  else
    let len := leNat (bytes.take 4)
    let rest := bytes.drop 4
    if rest.length < len then .error .torn
    else match json.fromSlice (rest.take len) with
      | none => .error .malformed
      | some record => .ok (record, rest.drop len)

def readLogRecords (file : Bytes) : List α :=
  (scanLoop (readLogFrame json) file.length file).records

/-- Where the reader leaves bytes of the file unread, the reason. -/
def unread (file : Bytes) : Option Unread :=
  (scanLoop (readLogFrame json) file.length file).stopped

/-- The text of the record fits its length prefix and reads back as the record. -/
def Readable (record : α) : Prop :=
  ∃ bytes, json.toVec record = some bytes ∧ bytes.length < 2 ^ 32 ∧
    json.fromSlice bytes = some record

variable {json} {record : α} {bytes : Bytes}

theorem logFrame_eq (hvec : json.toVec record = some bytes) (hlen : bytes.length < 2 ^ 32) :
    logFrame json record = leBytes 4 bytes.length ++ bytes := by
  rw [logFrame, hvec]
  exact if_pos hlen

theorem logFrame_pos (record : α) (h : Readable json record) :
    0 < (logFrame json record).length := by
  obtain ⟨bytes, hvec, hlen, -⟩ := h
  rw [logFrame_eq hvec hlen, List.length_append, leBytes_length]
  omega

theorem readLogFrame_logFrame (record : α) (rest : Bytes) (h : Readable json record) :
    readLogFrame json (logFrame json record ++ rest) = .ok (record, rest) := by
  obtain ⟨bytes, hvec, hlen, hread⟩ := h
  have hhead : (leBytes 4 bytes.length ++ bytes ++ rest).take 4 = leBytes 4 bytes.length := by
    rw [List.append_assoc, List.take_left' (leBytes_length 4 _)]
  have htail : (leBytes 4 bytes.length ++ bytes ++ rest).drop 4 = bytes ++ rest := by
    rw [List.append_assoc, List.drop_left' (leBytes_length 4 _)]
  have hcount : leNat (leBytes 4 bytes.length) = bytes.length :=
    leNat_leBytes 4 _ (by norm_num; exact hlen)
  have hlong : ¬(leBytes 4 bytes.length ++ bytes ++ rest).length < 4 := by
    rw [List.length_append, List.length_append, leBytes_length]
    omega
  rw [logFrame_eq hvec hlen, readLogFrame, if_neg hlong]
  dsimp only
  rw [hhead, htail, hcount, if_neg (by rw [List.length_append]; omega), List.take_left' rfl,
    List.drop_left' rfl, hread]

theorem readLogFrame_torn (record : α) (n : ℕ) (h : Readable json record)
    (hn : n < (logFrame json record).length) :
    ∃ e, readLogFrame json ((logFrame json record).take n) = .error e := by
  obtain ⟨bytes, hvec, hlen, -⟩ := h
  rw [logFrame_eq hvec hlen] at hn ⊢
  rw [List.length_append, leBytes_length] at hn
  have hcut : ((leBytes 4 bytes.length ++ bytes).take n).length = n := by
    rw [List.length_take, List.length_append, leBytes_length]
    omega
  rcases Nat.lt_or_ge n 4 with hshort | hlong
  · exact ⟨.short, by rw [readLogFrame, if_pos (by rw [hcut]; exact hshort)]⟩
  · have hhead : ((leBytes 4 bytes.length ++ bytes).take n).take 4 =
        leBytes 4 bytes.length := by
      rw [List.take_take, min_eq_left hlong, List.take_left' (leBytes_length 4 _)]
    have hcount : leNat (leBytes 4 bytes.length) = bytes.length :=
      leNat_leBytes 4 _ (by norm_num; exact hlen)
    refine ⟨.torn, ?_⟩
    rw [readLogFrame, if_neg (by rw [hcut]; omega)]
    dsimp only
    rw [hhead, hcount, if_pos (by rw [List.length_drop, hcut]; omega)]

/-- The sidecar as a stream of self-delimiting records. -/
def sidecar (json : JsonCodec α) : StreamCodec α Unread where
  Valid := Readable json
  encode := logFrame json
  decode := readLogFrame json
  encode_pos := logFrame_pos
  decode_encode := readLogFrame_logFrame
  decode_torn := readLogFrame_torn

end Sidecar

/-- The records of the chain, whose hashes are texts here. -/
abbrev ForensicRecord := Forensic.ForensicRecord String

structure ForensicChainDisk where
  formatVersion : ℕ
  nextId : ℕ
  records : List ForensicRecord

/-- The contents of `changes.json`, which older engines wrote as a bare list. -/
inductive ChangesFile
  | disk (formatVersion : ℕ) (events : List ChangeEvent)
  | bare (events : List ChangeEvent)

structure LogDisk where
  changes : Option ChangesFile := none
  changesFlog : Bytes := []
  forensicChain : Option ForensicChainDisk := none
  forensicFlog : Bytes := []

/-- The texts of the records, and `forensic_record_hash`. -/
structure LogFormats where
  event : JsonCodec ChangeEvent
  record : JsonCodec ForensicRecord
  recordHash : (prevHash : String) → ForensicEvent → String

/-- What the engine holds of the two logs. -/
structure Logs where
  log : ChangeLog
  forensicChain : List ForensicRecord := []
  forensicNextId : ℕ := 1

def changeLogFormatVersion : ℕ := 2

def forensicChainFormatVersion : ℕ := 3

def forensicGenesisHash : String := "genesis"

section Engine
variable (fmt : LogFormats)

/-- The hash to which the next record of the chain refers. -/
def chainHeadHash (chain : List ForensicRecord) : String :=
  headHash Forensic.ForensicRecord.hash forensicGenesisHash chain

/-- What the record of a change covers. -/
def Logs.forensicEvent (logs : Logs) (ts : ℕ) (c : Change) (changeSeq : ℕ) : ForensicEvent where
  id := logs.forensicNextId
  tsMs := ts
  db := c.db
  table := c.table
  op := c.op
  pk := c.pk
  changeSeq := changeSeq

def Logs.forensicRecord (logs : Logs) (ts : ℕ) (c : Change) (changeSeq : ℕ) : ForensicRecord :=
  { logs.forensicEvent ts c changeSeq with
    prevHash := chainHeadHash logs.forensicChain
    hash := fmt.recordHash (chainHeadHash logs.forensicChain)
      (logs.forensicEvent ts c changeSeq) }

/-- The event that `emit_change` logs next. -/
def Logs.changeEvent (logs : Logs) (now : ℕ) (c : Change) : ChangeEvent :=
  c.event ((logs.log.changeSeq + 1) % 2 ^ 64) now

/-- The record that `emit_change` chains next. -/
def Logs.changeRecord (logs : Logs) (now ts : ℕ) (c : Change) : ForensicRecord :=
  logs.forensicRecord fmt ts c (logs.log.emitChange now c).changeSeq

/-- `emit_change` in memory, at the two times that it reads off the clock. -/
def Logs.emitChange (logs : Logs) (now ts : ℕ) (c : Change) : Logs where
  log := logs.log.emitChange now c
  forensicChain := logs.forensicChain ++ [logs.changeRecord fmt now ts c]
  forensicNextId := saturatingSucc logs.forensicNextId

/-- `emit_change` on disk. -/
def LogDisk.appendChange (disk : LogDisk) (event : ChangeEvent) (record : ForensicRecord) :
    LogDisk :=
  { disk with
    changesFlog := appendLogRecord fmt.event disk.changesFlog event
    forensicFlog := appendLogRecord fmt.record disk.forensicFlog record }

/-- What a crash leaves after that many bytes of the two appends. -/
def LogDisk.tearChange (disk : LogDisk) (event : ChangeEvent) (record : ForensicRecord)
    (written : ℕ) : LogDisk :=
  let eventFrame := logFrame fmt.event event
  { disk with
    changesFlog := disk.changesFlog ++ eventFrame.take written
    forensicFlog := disk.forensicFlog ++
      (logFrame fmt.record record).take (written - eventFrame.length) }

/-- The events of the snapshot file, where its format is known. -/
def snapshotEvents : Option ChangesFile → List ChangeEvent
  | some (.disk formatVersion events) =>
    if 1 ≤ formatVersion ∧ formatVersion ≤ changeLogFormatVersion then events else []
  | some (.bare events) => events
  | none => []

/-- The records of the snapshot file and the number of the next one. -/
def snapshotChain : Option ForensicChainDisk → List ForensicRecord × ℕ
  | some disk =>
    if disk.formatVersion ≤ forensicChainFormatVersion then (disk.records, max disk.nextId 1)
    else ([], 1)
  | none => ([], 1)

def loadChanges (retention : ℕ) (hpos : 0 < retention) (disk : LogDisk) : ChangeLog :=
  let events := snapshotEvents disk.changes
  let tail := readLogRecords fmt.event disk.changesFlog
  let changes := trimRetainedChangeLog retention (mergeTail (·.seq) events tail)
  { changes := changes
    changeSeq := (changes.getLast?.map (·.seq)).getD 0
    cdcRetentionEvents := retention
    retention_pos := hpos }

def loadForensic (disk : LogDisk) : List ForensicRecord × ℕ :=
  let snapshot := snapshotChain disk.forensicChain
  let tail := readLogRecords fmt.record disk.forensicFlog
  let snapshotMaxId := (snapshot.1.getLast?.map (·.id)).getD 0
  let newer := tail.filter fun rec => snapshotMaxId < rec.id
  (snapshot.1 ++ newer,
    newer.foldl (fun nextId rec => max nextId ((rec.id + 1) % 2 ^ 64)) snapshot.2)

/-- What `open` makes of the files. -/
def openLogs (retention : ℕ) (hpos : 0 < retention) (disk : LogDisk) : Logs where
  log := loadChanges fmt retention hpos disk
  forensicChain := (loadForensic fmt disk).1
  forensicNextId := (loadForensic fmt disk).2

def persistChanges (logs : Logs) (disk : LogDisk) : LogDisk :=
  { disk with changes := some (.disk changeLogFormatVersion logs.log.changes) }

def persistForensic (logs : Logs) (disk : LogDisk) : LogDisk :=
  { disk with
    forensicChain := some ⟨forensicChainFormatVersion, logs.forensicNextId, logs.forensicChain⟩ }

/-- The writes of `compact_change_forensic_logs`, in their order. -/
def compactSteps (logs : Logs) : List (LogDisk → LogDisk) :=
  [persistChanges logs, persistForensic logs, fun disk => { disk with changesFlog := [] },
    fun disk => { disk with forensicFlog := [] }]

/-- The disk after the first writes of a compaction. -/
def compactLogs (logs : Logs) (done : ℕ) (disk : LogDisk) : LogDisk :=
  ((compactSteps logs).take done).foldl (fun disk write => write disk) disk

structure AuditReport where
  recordsChecked : ℕ
  badIndex : Option ℕ
  reason : Option String
  chainHeadHash : String
  deriving DecidableEq

/-- The first record that does not follow from the hash before it, and why. -/
def auditFrom (prevHash : String) : List ForensicRecord → ℕ → Option (ℕ × String)
  | [], _ => none
  | rec :: chain, idx =>
    if rec.prevHash ≠ prevHash then some (idx, "prev_hash_mismatch")
    else if fmt.recordHash rec.prevHash rec.toForensicEvent ≠ rec.hash then
      some (idx, "hash_mismatch")
    else auditFrom rec.hash chain (idx + 1)

def Logs.auditVerify (logs : Logs) : AuditReport where
  recordsChecked := logs.forensicChain.length
  badIndex := (auditFrom fmt forensicGenesisHash logs.forensicChain 0).map (·.1)
  reason := (auditFrom fmt forensicGenesisHash logs.forensicChain 0).map (·.2)
  chainHeadHash := chainHeadHash logs.forensicChain

def AuditReport.ok (report : AuditReport) : Bool := report.badIndex.isNone

end Engine

end SkeinDB.Changes
