import SkeinDB.Tables.Alike
import SkeinDB.Tables.Borrow
import SkeinDB.Tables.Maintenance

/-!
# The export of the tables and its replay

`skeindb/src/engine.rs`: `snapshot_export` turns the databases, the tables and the live rows into
operations, which a fresh node executes one after another. The operation that creates a table
carries the counters of the table, but no defaults and no indexes, and the method that executes it
does not look at the counters.
-/
namespace SkeinDB.Tables
open SkeinDB.Transition

inductive SnapshotOp
  | createDatabase (db : String)
  | createTable (key : TableKey) (columns : List ColumnSchema) (primaryKey : List String)
      (autoIncNext : String → Option ℕ)
  | insert (key : TableKey) (rows : List RowObject)

section Export

def rowsPerInsert : ℕ := 1024

/-- The rows in batches; `batch` is what has been gathered of the next one. -/
def insertBatches (batch : List RowObject) : List RowObject → List (List RowObject)
  | [] => if batch.isEmpty then [] else [batch]
  | row :: rows =>
    if rowsPerInsert ≤ (batch ++ [row]).length then (batch ++ [row]) :: insertBatches [] rows
    else insertBatches (batch ++ [row]) rows

theorem flatten_insertBatches (batch rows : List RowObject) :
    (insertBatches batch rows).flatten = batch ++ rows := by
  induction rows generalizing batch with
  | nil =>
    rw [insertBatches]
    split
    · simp_all
    · simp
  | cons row rows ih =>
    rw [insertBatches]
    split
    · rw [List.flatten_cons, ih, List.append_assoc]
      rfl
    · rw [ih, List.append_assoc]
      rfl

def tableOps (key : TableKey) (schema : TableSchema) (rows : List RowObject) : List SnapshotOp :=
  .createTable key schema.columns schema.primaryKey schema.autoIncNext ::
    (insertBatches [] rows).map (.insert key)

def exportTable (s : Engine) (key : TableKey) : Except String (List SnapshotOp) := do
  let t ← s.getTable key
  let entries ← t.data.scanRows
  .ok (tableOps key t.schema (liveRows entries))

def sortedNames (names : List String) : List String := names.mergeSort fun a b => a ≤ b

def exportDatabase (s : Engine) (db : String) : Except String (List SnapshotOp) := do
  let tables := ((s.catalog.lookup db).elim [] fun tables => sortedNames tables.keys)
  let ops ← tables.mapM fun table => exportTable s ⟨db, table⟩
  .ok (.createDatabase db :: ops.flatten)

def snapshotExport (s : Engine) : Except String (List SnapshotOp) := do
  let ops ← (sortedNames s.catalog.keys).mapM (exportDatabase s)
  .ok ops.flatten

end Export

section Replay
variable (ext : Externals) (json : RowObject → Option RowObject) (now : ℕ → ℕ)

/-- What the methods of the server do with an operation. `json` is what is left of a row once it
has been written as JSON and read back. -/
def applyOp : SnapshotOp → EStateM String Engine Unit
  | .createDatabase db => createDatabase {} db
  | .createTable key columns primaryKey _ =>
    createTable ext.text {} key { columns, primaryKey } false
  | .insert key rows =>
    match rows.mapM json with
    | none => throw "invalid_request: invalid params"
    | some rows => do
      let _ ← dataInsert ext {} now key rows none
      pure ()

def replay (ops : List SnapshotOp) : EStateM String Engine Unit := forM ops (applyOp ext json now)

end Replay

end SkeinDB.Tables
