import Mathlib.Data.List.AList
import SkeinDB.Tables.Table
import SkeinDB.Transition.Fallible

/-!
# The engine and its files

`skeindb/src/engine.rs` and `skeindb/src/engine/wal.rs`: the catalog and the tables in memory,
what of them is on disk, and the write-ahead log with which a statement is made durable before
the snapshot of its table is rewritten.
-/
namespace SkeinDB.Tables
open SkeinDB.Transition

structure TableKey where
  db : String
  table : String
  deriving DecidableEq, Repr

/-- One row redo record: the full committed state of a single row after a mutation. -/
structure WalRowRecord where
  db : String
  table : String
  pk : List Lit
  row : RowObject
  version : ℕ
  schemaVersion : ℕ
  deleted : Bool
  commitTsMs : ℕ

def WalRowRecord.fromEntry (key : TableKey) (pk : List Lit) (entry : RowEntry) : WalRowRecord where
  db := key.db
  table := key.table
  pk := pk
  row := entry.row
  version := entry.version
  schemaVersion := entry.schemaVersion
  deleted := entry.deleted
  commitTsMs := entry.commitTsMs

inductive WalFrame
  | beginTxn (txn : ℕ)
  | mutation (txn : ℕ) (record : WalRowRecord)
  | commitTxn (txn : ℕ)

/-- The databases by name, and the schemas of each by table. -/
abbrev Catalog := AList (fun _ : String => AList (fun _ : String => TableSchema))

structure Disk where
  catalog : Catalog := ∅
  tables : TableKey → Option (List RowEntry) := fun _ => none
  wals : String → List WalFrame := fun _ => []

/-- The log of a database is its file under `wal/`, which the engine only appends to or
removes. -/
structure Engine where
  catalog : Catalog := ∅
  tables : TableKey → Option TableData := fun _ => none
  schemaVersions : TableKey → Option ℕ := fun _ => none
  walNextTxn : ℕ := 0
  dirtyTables : List TableKey := []
  mutationsSinceFlush : ℕ := 0
  encryptedLockedTables : TableKey → Bool := fun _ => false
  corruptTables : TableKey → Bool := fun _ => false
  disk : Disk := {}

/-- What the file system does to the writes of one call: the error of a write that fails, and
how many frames of a transaction were appended before the log refused one. -/
structure Io where
  saveCatalog : Option String := none
  logRows : Option (ℕ × String) := none
  saveTable : TableKey → Option String := fun _ => none

/-- What the engine takes from elsewhere: `serde_json` on a list of values, the hash of a row
with its version, and the hash of an embedding with its bucket. -/
structure Externals where
  text : LitsText
  rowEtag : RowObject → ℕ → String
  embeddingId : ℕ → List Float32 → Option String → String

def walFlushThreshold : ℕ := 128

namespace Engine

def getSchema (s : Engine) (key : TableKey) : Except String TableSchema :=
  match s.catalog.lookup key.db with
  | none => .error ("database not found: " ++ key.db)
  | some tables =>
    match tables.lookup key.table with
    | none => .error ("table not found: " ++ key.db ++ "." ++ key.table)
    | some schema => .ok schema

def getTable (s : Engine) (key : TableKey) : Except String Table := do
  let schema ← s.getSchema key
  match s.tables key with
  | none => .error ("table data not loaded: " ++ key.db ++ "." ++ key.table)
  | some data => .ok ⟨schema, data⟩

def schemaVersionFor (s : Engine) (key : TableKey) : ℕ := (s.schemaVersions key).getD 1

def putSchema (catalog : Catalog) (key : TableKey) (schema : TableSchema) : Catalog :=
  match catalog.lookup key.db with
  | none => catalog
  | some tables => catalog.insert key.db (tables.insert key.table schema)

def putTable (key : TableKey) (t : Table) (s : Engine) : Engine :=
  { s with
    catalog := putSchema s.catalog key t.schema
    tables := Function.update s.tables key (some t.data) }

/-- The rows that were read for a table, with its indexes when its schema is known. -/
def loadRows (text : LitsText) (schema : Option TableSchema) (rows : List RowEntry)
    (indexes : String → Option SecondaryIndex) : TableData :=
  let data : TableData := { rows, secondaryIndexes := indexes, pk_lt := by simp }
  match schema with
  | none => data
  | some schema =>
    (Table.ensureMysqlCompatSecondaryIndexes text ⟨schema, data.reindex text schema⟩).data

/-- The rows of a table as a write finds them. -/
def materialize (text : LitsText) (schema : Option TableSchema) (data : TableData) :
    Except String TableData :=
  match data.residency with
  | .resident => .ok data
  | .streaming (.error e) => .error e
  | .streaming (.ok rows) => .ok (loadRows text schema rows data.secondaryIndexes)

/-- Bring a table whose rows are on disk into memory. -/
def materializeStreamingTable (text : LitsText) (key : TableKey) : EStateM String Engine Unit := do
  let s ← get
  match s.tables key with
  | none => pure ()
  | some data =>
    match materialize text (s.getSchema key).toOption data with
    | .error e => throw e
    | .ok data => set { s with tables := Function.update s.tables key (some data) }

def getTableMut (text : LitsText) (key : TableKey) : EStateM String Engine Table := do
  materializeStreamingTable text key
  let s ← get
  match s.getSchema key with
  | .error e => throw e
  | .ok schema =>
    match s.tables key with
    | none => throw "table data not loaded"
    | some data => pure ⟨schema, data⟩

/-- Run the part of a statement that has the table borrowed. -/
def onTable {α : Type} (text : LitsText) (key : TableKey) (m : EStateM String Table α) :
    EStateM String Engine α := do
  let t ← getTableMut text key
  zoom (fun _ => t) (putTable key) m

def persistCatalog (io : Io) : EStateM String Engine Unit :=
  match io.saveCatalog with
  | some e => throw e
  | none => modify fun s => { s with disk := { s.disk with catalog := s.catalog } }

def refused (s : Engine) (key : TableKey) : Bool :=
  s.encryptedLockedTables key || s.corruptTables key

/-- A table that is encrypted without its key, or whose file is unreadable, is not written; a
table that is not in memory has nothing to write. -/
def persistTable (text : LitsText) (io : Io) (key : TableKey) : EStateM String Engine Unit := do
  let s ← get
  if s.encryptedLockedTables key then
    throw ("encryption key required: table '" ++ key.db ++ "." ++ key.table ++
      "' has encrypted data at rest; register the database key before writing")
  if s.corruptTables key then
    throw ("storage_corrupt: table '" ++ key.db ++ "." ++ key.table ++
      "' has an unreadable on-disk file; refusing to overwrite it " ++
      "(back up and remove the corrupt file to recover)")
  match s.tables key with
  | none => pure ()
  | some data =>
    match data.residency with
    | .streaming _ => pure ()
    | .resident =>
      if let some e := io.saveTable key then throw e
      modify fun s =>
        { s with disk := { s.disk with tables := Function.update s.disk.tables key data.rows } }
      match s.getSchema key with
      | .error e => throw e
      | .ok schema => modify (putTable key (Table.rebuildSecondaryIndexesIfStale text ⟨schema, data⟩))

def walTruncate (s : Engine) : Engine := { s with disk := { s.disk with wals := fun _ => [] } }

def appendFrames (db : String) (frames : List WalFrame) (s : Engine) : Engine :=
  { s with disk := { s.disk with wals := Function.update s.disk.wals db (s.disk.wals db ++ frames) } }

/-- Every call logs rows of one table, so its records form one transaction of one database. -/
def walLogRows (io : Io) (db : String) (records : List WalRowRecord) :
    EStateM String Engine Unit :=
  if records = [] then pure ()
  else do
    let txn := (← get).walNextTxn
    modify fun s => { s with walNextTxn := (txn + 1) % 2 ^ 64 }
    let frames := .beginTxn txn :: records.map (.mutation txn) ++ [.commitTxn txn]
    match io.logRows with
    | some (written, e) => do
      modify (appendFrames db (frames.take written))
      throw e
    | none => modify (appendFrames db frames)

def persistDirty (text : LitsText) (io : Io) (key : TableKey) : EStateM String Engine Unit := do
  persistTable text io key
  modify fun s => { s with dirtyTables := s.dirtyTables.erase key }

def flushDirtyTables (text : LitsText) (io : Io) : EStateM String Engine Unit := do
  let s ← get
  if s.dirtyTables = [] then set { s with mutationsSinceFlush := 0 }
  else
    s.dirtyTables.foldlM (fun _ key => persistDirty text io key) ()
    modify fun s => walTruncate { s with mutationsSinceFlush := 0 }

def persistTableDeferred (text : LitsText) (io : Io) (key : TableKey) :
    EStateM String Engine Unit := do
  let s ← get
  if s.refused key then persistTable text io key
  else
    let s := { s with
      dirtyTables := if key ∈ s.dirtyTables then s.dirtyTables else s.dirtyTables ++ [key]
      mutationsSinceFlush := saturatingSucc s.mutationsSinceFlush }
    set s
    if walFlushThreshold ≤ s.mutationsSinceFlush then flushDirtyTables text io

end Engine

end SkeinDB.Tables
