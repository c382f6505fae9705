import SkeinDB.Tables.State

/-!
# Statements

`skeindb/src/engine.rs`: `data_insert`, `data_update_exprs`, `data_delete` and `vector_insert`.
Each borrows its table, takes the rows one after another, and only then writes the catalog, the
log and the snapshot. An error at any point returns with what was written before it in place.
-/
namespace SkeinDB.Tables
open SkeinDB.Transition

structure WriteResult where
  affected : ℕ
  lastInsertId : ℕ := 0
  returning : Option (List RowObject) := none

/-- The surroundings of one statement: what the engine takes from elsewhere, the clock as it is
read for the nth row, and the schema version that the rows are stamped with. -/
structure Stamp where
  ext : Externals
  now : ℕ → ℕ
  schemaVersion : ℕ

/-- A row as a statement writes it. -/
def Stamp.entry (st : Stamp) (schema : TableSchema) (n : ℕ) (row : RowObject) (deleted : Bool) :
    RowEntry where
  row := row
  version := nextRowVersion schema
  schemaVersion := st.schemaVersion
  deleted := deleted
  commitTsMs := st.now n

section Insert

structure InsertProgress where
  lastInsertId : ℕ := 0
  returning : List RowObject := []
  walRecords : List WalRowRecord := []

def selectColumns (row : RowObject) (columns : List String) : RowObject := fun c =>
  if c ∈ columns then row c else none

/-- What `data_insert` checks once the indexes are current. The primary key of a row that goes
in is returned. -/
def checkInsert (text : LitsText) (t : Table) (row : RowObject) : Except String (List Lit) :=
  match t.mysqlCompatUniqueConflict text row none with
  | some index => .error ("conflict: " ++ duplicateKeyMessage index)
  | none => do
    let pk ← extractPk t.schema row
    if t.primaryKeyConflict (text pk) none then
      .error ("conflict: " ++ duplicateKeyMessage (primaryKeyIndexName t.schema))
    else .ok pk

def Table.withCounters (t : Table) (counters : String → Option ℕ) : Table :=
  { t with schema := { t.schema with autoIncNext := counters } }

/-- Add a row under the text of its key, with its postings. -/
def Table.storeRow (text : LitsText) (t : Table) (key : String) (entry : RowEntry) : Table :=
  let stored := { t with data := t.data.pushRow key entry }
  stored.secondaryIndexAddRow text t.data.rows.length entry.row

def insertRow (st : Stamp) (key : TableKey) (returning : Option (List String))
    (progress : InsertProgress) (row : RowObject) : EStateM String Table InsertProgress := do
  let t ← get
  let fill := applyDefaultsAndAutoinc t.schema row progress.lastInsertId
  set (t.withCounters fill.autoIncNext)
  match notNullViolation t.schema fill.row with
  | some column => throw ("invalid_request: null value for non-null column " ++ column)
  | none =>
    modify (Table.rebuildSecondaryIndexesIfStale st.ext.text)
    let t ← get
    match checkInsert st.ext.text t fill.row with
    | .error e => throw e
    | .ok pk =>
      let entry := st.entry t.schema progress.walRecords.length fill.row false
      set (t.storeRow st.ext.text (st.ext.text pk) entry)
      return {
        lastInsertId := fill.lastInsertId
        returning := progress.returning ++ (returning.map (selectColumns fill.row)).toList
        walRecords := progress.walRecords ++ [.fromEntry key pk entry] }

/-- The table version is raised at the end of a statement that affected the table, and the
indexes, which were kept up row by row, count as built at it. -/
def bump (t : Table) : Table :=
  let t := { t with schema := bumpTableVersion t.schema }
  t.setSecondaryIndexesBuiltVersion t.schema.tableVersion

def insertRows (st : Stamp) (key : TableKey) (rows : List RowObject)
    (returning : Option (List String)) : EStateM String Table (InsertProgress × Bool) := do
  modify (Table.rebuildSecondaryIndexesIfStale st.ext.text)
  let progress ← rows.foldlM (insertRow st key returning) {}
  modify bump
  let t ← get
  return (progress, !progress.walRecords.isEmpty && t.schema.columns.any (·.autoIncrement))

def commitInsert (ext : Externals) (io : Io) (key : TableKey) (done : InsertProgress × Bool) :
    EStateM String Engine WriteResult := do
  let (progress, catalogPersistNeeded) := done
  if catalogPersistNeeded then Engine.persistCatalog io
  Engine.walLogRows io key.db progress.walRecords
  Engine.persistTableDeferred ext.text io key
  return {
    affected := progress.walRecords.length
    lastInsertId := progress.lastInsertId
    returning := if progress.returning = [] then none else some progress.returning }

def dataInsert (ext : Externals) (io : Io) (now : ℕ → ℕ) (key : TableKey)
    (rows : List RowObject) (returning : Option (List String)) :
    EStateM String Engine WriteResult := do
  let st : Stamp := ⟨ext, now, (← get).schemaVersionFor key⟩
  let done ← Engine.onTable ext.text key (insertRows st key rows returning)
  commitInsert ext io key done

end Insert

section Filtered

/-- Which rows a statement is about. What an expression evaluates to at the row in some position
is a function of the position and the row; a compiled plan answers for some rows, and the
predicate is evaluated nevertheless. -/
structure Filter where
  predicate : ℕ → RowObject → Except String Bool
  plan : Option (RowObject → Option Bool) := none
  limit : Option ℕ := none

def Filter.matches (f : Filter) (idx : ℕ) (row : RowObject) : Except String Bool := do
  let truth ← f.predicate idx row
  return (f.plan.bind fun plan => plan row).getD truth

structure Update extends Filter where
  assignments : List (String × (ℕ → RowObject → Except String Lit))
  ifMatch : Option String := none

def Update.newRow (u : Update) (idx : ℕ) (row : RowObject) : Except String RowObject :=
  u.assignments.foldlM (fun new (column, eval) => return new.insert column (← eval idx row)) row

/-- What `data_update_exprs` checks of a row that matches before it looks at the unique indexes.
The new row is returned with the text of its old key. -/
def checkUpdate (ext : Externals) (u : Update) (t : Table) (idx : ℕ) (entry : RowEntry) :
    Except String (RowObject × String) :=
  if u.ifMatch.any (· ≠ ext.rowEtag entry.row entry.version) then .error "conflict"
  else do
    let newRow ← u.newRow idx entry.row
    match notNullViolation t.schema newRow with
    | some column => .error ("invalid_request: null value for non-null column " ++ column)
    | none =>
      let currentPk ← extractPk t.schema entry.row
      let newPk ← extractPk t.schema newRow
      if t.primaryKeyConflict (ext.text newPk) (some idx) then
        .error ("conflict: " ++ duplicateKeyMessage (primaryKeyIndexName t.schema))
      else .ok (newRow, ext.text currentPk)

/-- Store a changed row in its place, under its new postings and its new key. -/
def Table.rewriteRow (text : LitsText) (t : Table) (idx : ℕ) (old : RowObject) (entry : RowEntry)
    (oldKey newKey : String) : Table :=
  let t := t.secondaryIndexRemoveRow text idx old
  let t := { t with data := t.data.setRow idx entry }
  let t := t.secondaryIndexAddRow text idx entry.row
  if oldKey = newKey then t else { t with data := t.data.movePk oldKey newKey idx }

/-- The records of a row that an update changed: its new image and, where the key moved, a
tombstone for the old one. -/
def updateRecords (text : LitsText) (key : TableKey) (schema : TableSchema) (old : RowObject)
    (entry : RowEntry) : List WalRowRecord :=
  match extractPk schema old, extractPk schema entry.row with
  | .ok oldPk, .ok newPk =>
    .fromEntry key newPk entry :: if text oldPk = text newPk then []
      else [.fromEntry key oldPk { entry with row := old, deleted := true }]
  | _, _ => []

def updateRow (st : Stamp) (key : TableKey) (u : Update) (idx : ℕ) :
    EStateM String Table (Option (List WalRowRecord)) := do
  let t ← get
  match t.data.rows[idx]? with
  | none => return none
  | some entry =>
    if entry.deleted then return none
    match u.matches idx entry.row with
    | .error e => throw e
    | .ok false => return none
    | .ok true =>
      match checkUpdate st.ext u t idx entry with
      | .error e => throw e
      | .ok (newRow, currentPkKey) =>
        modify (Table.rebuildSecondaryIndexesIfStale st.ext.text)
        let t ← get
        match t.mysqlCompatUniqueConflict st.ext.text newRow (some idx) with
        | some index => throw ("conflict: " ++ duplicateKeyMessage index)
        | none =>
          match extractPk t.schema newRow with
          | .error e => throw e
          | .ok newPk =>
            let entry' := st.entry t.schema idx newRow entry.deleted
            set (t.rewriteRow st.ext.text idx entry.row entry' currentPkKey (st.ext.text newPk))
            return some (updateRecords st.ext.text key t.schema entry.row entry')

/-- Visit the rows in order of position, and raise the table version when one was affected. -/
def sweepRows (st : Stamp) (limit : Option ℕ)
    (visit : ℕ → EStateM String Table (Option (List WalRowRecord))) :
    EStateM String Table (List (List WalRowRecord)) := do
  modify (Table.rebuildSecondaryIndexesIfStale st.ext.text)
  let t ← get
  let affected ← scan visit limit (List.range t.data.rows.length) []
  if affected ≠ [] then modify bump
  return affected

/-- The end that updates and deletions share. -/
def commitSweep (ext : Externals) (io : Io) (key : TableKey) (affected : List (List WalRowRecord)) :
    EStateM String Engine WriteResult := do
  if affected ≠ [] then
    Engine.persistCatalog io
    Engine.walLogRows io key.db affected.flatten
    Engine.persistTableDeferred ext.text io key
  return { affected := affected.length }

def sweep (ext : Externals) (io : Io) (now : ℕ → ℕ) (key : TableKey) (limit : Option ℕ)
    (visit : Stamp → ℕ → EStateM String Table (Option (List WalRowRecord))) :
    EStateM String Engine WriteResult := do
  let s ← get
  match s.getTable key with
  | .error e => throw e
  | .ok _ =>
    let st : Stamp := ⟨ext, now, s.schemaVersionFor key⟩
    let affected ← Engine.onTable ext.text key (sweepRows st limit (visit st))
    commitSweep ext io key affected

def dataUpdateExprs (ext : Externals) (io : Io) (now : ℕ → ℕ) (key : TableKey) (u : Update) :
    EStateM String Engine WriteResult :=
  sweep ext io now key u.limit fun st => updateRow st key u

/-- Store a tombstone in the place of a row, which loses its postings. -/
def Table.removeRow (text : LitsText) (t : Table) (idx : ℕ) (old : RowObject) (entry : RowEntry) :
    Table :=
  let t := t.secondaryIndexRemoveRow text idx old
  { t with data := t.data.setRow idx entry }

def deleteRow (st : Stamp) (key : TableKey) (f : Filter) (idx : ℕ) :
    EStateM String Table (Option (List WalRowRecord)) := do
  let t ← get
  match t.data.rows[idx]? with
  | none => return none
  | some entry =>
    if entry.deleted then return none
    match f.matches idx entry.row with
    | .error e => throw e
    | .ok false => return none
    | .ok true =>
      let entry' := st.entry t.schema idx entry.row true
      set (t.removeRow st.ext.text idx entry.row entry')
      return some ((extractPk t.schema entry.row).toOption.map (.fromEntry key · entry')).toList

def dataDelete (ext : Externals) (io : Io) (now : ℕ → ℕ) (key : TableKey) (f : Filter) :
    EStateM String Engine WriteResult :=
  sweep ext io now key f.limit fun st => deleteRow st key f

end Filtered

section Vector

structure VectorInsertRow where
  pk : List Lit
  embedding : Lit

structure VectorInsertParams where
  column : String
  rows : List VectorInsertRow
  upsert : Bool := false

structure VectorInsertResult where
  inserted : ℕ := 0
  updated : ℕ := 0
  embeddingIds : List String := []

structure VectorProgress extends VectorInsertResult where
  lastInsertId : ℕ := 0

def embeddingRef : Lit → Except String (ℕ × List Float32 × Option String)
  | .embedding dims v model =>
    if dims = 0 then .error "invalid_request: embedding dims must be > 0"
    else if v.length ≠ dims then .error "invalid_request: embedding dims mismatch"
    else .ok (dims, v, model)
  | _ => .error "invalid_request: embedding literal required"

def embeddingIdForLit (ext : Externals) (lit : Lit) : Except String String := do
  let (dims, v, model) ← embeddingRef lit
  if dims = 0 || v.length ≠ dims then throw "invalid_request: embedding bytes unavailable"
  return ext.embeddingId dims v model

/-- What `vector_insert` checks of its table. -/
def checkVectorTable (schema : TableSchema) (column : String) : Except String Unit :=
  if schema.primaryKey = [] then .error "invalid_request: table has no primary key"
  else match schema.columns.find? (·.name = column) with
    | none => .error ("invalid_request: unknown column " ++ column)
    | some col =>
      if col.kind ≠ "embedding" then
        .error ("invalid_request: column " ++ column ++ " is not embedding")
      else .ok ()

/-- The row of a key that the table does not have yet: the key and the embedding. -/
def newVectorRow (schema : TableSchema) (column : String) (row : VectorInsertRow) :
    Except String RowObject := do
  let new ← ensurePkValues schema row.pk fun _ => none
  return new.insert column row.embedding

/-- The change that `vector_insert` makes for one row: it replaces the embedding under a key that
the primary-key index has, deleted or not, or adds a row. -/
def writeVector (st : Stamp) (params : VectorInsertParams) (progress : VectorProgress)
    (row : VectorInsertRow) (t : Table) : Except String (VectorProgress × Table) :=
  let entry := fun row => st.entry t.schema (progress.inserted + progress.updated) row false
  match (t.data.pkIndex (st.ext.text row.pk)).bind fun idx =>
      (t.data.rows[idx]?).map fun entry => (idx, entry.row) with
  | some (idx, old) =>
    if !params.upsert then .error "conflict"
    else .ok ({ progress with updated := progress.updated + 1 }, { t with
      data := t.data.setRow idx (entry (old.insert params.column row.embedding)) })
  | none => do
    let new ← newVectorRow t.schema params.column row
    let fill := applyDefaultsAndAutoinc t.schema new progress.lastInsertId
    return ({ progress with inserted := progress.inserted + 1, lastInsertId := fill.lastInsertId },
      { schema := { t.schema with autoIncNext := fill.autoIncNext }
        data := t.data.pushRow (st.ext.text row.pk) (entry fill.row) })

def vectorRow (st : Stamp) (params : VectorInsertParams) (progress : VectorProgress)
    (row : VectorInsertRow) : EStateM String Table VectorProgress := do
  let t ← get
  if row.pk.length ≠ t.schema.primaryKey.length then
    throw "invalid_request: primary key length mismatch"
  match embeddingRef row.embedding with
  | .error e => throw e
  | .ok _ =>
    match writeVector st params progress row t with
    | .error e => throw e
    | .ok (progress, t) =>
      set t
      match embeddingIdForLit st.ext row.embedding with
      | .error e => throw e
      | .ok id => return { progress with embeddingIds := progress.embeddingIds ++ [id] }

def vectorRows (st : Stamp) (params : VectorInsertParams) :
    EStateM String Table VectorProgress := do
  let t ← get
  match checkVectorTable t.schema params.column with
  | .error e => throw e
  | .ok () =>
    let progress ← params.rows.foldlM (vectorRow st params) {}
    if 0 < progress.inserted + progress.updated then
      modify fun t => { t with schema := bumpTableVersion t.schema }
    return progress

def commitVector (ext : Externals) (io : Io) (key : TableKey) (progress : VectorProgress) :
    EStateM String Engine VectorInsertResult := do
  if 0 < progress.inserted + progress.updated then
    Engine.persistCatalog io
    Engine.persistTable ext.text io key
  return progress.toVectorInsertResult

def vectorInsert (ext : Externals) (io : Io) (now : ℕ → ℕ) (key : TableKey)
    (params : VectorInsertParams) : EStateM String Engine VectorInsertResult :=
  if params.rows = [] then return {}
  else do
    let st : Stamp := ⟨ext, now, (← get).schemaVersionFor key⟩
    let progress ← Engine.onTable ext.text key (vectorRows st params)
    commitVector ext io key progress

end Vector

end SkeinDB.Tables
