import SkeinDB.Tables.Statements

/-!
# Tables that come, go and are written back

`skeindb/src/engine.rs`: creating, dropping and renaming a table, `merge_apply`, which writes its
table at once and logs nothing, and `checkpoint_for_shutdown`.
-/
namespace SkeinDB.Tables
open SkeinDB.Transition

section Definition

/-- The error of removing the files of a table comes beside those of the writes. -/
structure DdlIo extends Io where
  removeFiles : Option String := none

def removeSchema (catalog : Catalog) (key : TableKey) : Catalog :=
  match catalog.lookup key.db with
  | none => catalog
  | some tables => catalog.insert key.db (tables.erase key.table)

def removeFiles (io : DdlIo) (key : TableKey) : EStateM String Engine Unit :=
  match io.removeFiles with
  | some e => throw e
  | none => modify fun s =>
    { s with disk := { s.disk with tables := Function.update s.disk.tables key none } }

def createDatabase (io : Io) (db : String) : EStateM String Engine Unit := do
  modify fun s => { s with
    catalog := if (s.catalog.lookup db).isSome then s.catalog else s.catalog.insert db ∅ }
  Engine.persistCatalog io

structure TableDefinition where
  columns : List ColumnSchema
  primaryKey : List String
  compatDefaults : String → Option Lit := fun _ => none
  compatIndexes : List CompatIndexDef := []

/-- The schema of a new table: at version 0, with the counters of its columns at 1. -/
def TableDefinition.schema (define : TableDefinition) : TableSchema where
  columns := define.columns
  primaryKey := define.primaryKey
  compatDefaults := define.compatDefaults
  compatIndexes := define.compatIndexes
  autoIncNext c := if define.columns.any fun col => col.autoIncrement && col.name == c then some 1
    else none

def createTable (text : LitsText) (io : Io) (key : TableKey) (define : TableDefinition)
    (ifNotExists : Bool) : EStateM String Engine Unit := do
  createDatabase io key.db
  let s ← get
  match s.getSchema key with
  | .ok _ =>
    if ifNotExists then return ()
    else throw ("table already exists: " ++ key.db ++ "." ++ key.table)
  | .error _ =>
    set { s with
      catalog := Engine.putSchema s.catalog key define.schema
      tables := Function.update s.tables key (some .empty)
      schemaVersions := Function.update s.schemaVersions key (some 1) }
    Engine.persistCatalog io
    Engine.persistTable text io key

/-- The files of the table go; what the log holds for it, and its place among the tables to be
flushed, stay. -/
def dropTable (io : DdlIo) (key : TableKey) (ifExists : Bool) : EStateM String Engine Unit := do
  let s ← get
  match s.getSchema key with
  | .error e => if ifExists then return () else throw e
  | .ok _ =>
    set { s with
      catalog := removeSchema s.catalog key
      tables := Function.update s.tables key none
      schemaVersions := Function.update s.schemaVersions key none }
    removeFiles io key
    Engine.persistCatalog io.toIo

def renameTable (text : LitsText) (io : DdlIo) (source target : TableKey) :
    EStateM String Engine Unit := do
  let s ← get
  if source = target then return ()
  else if s.catalog.lookup source.db = none then
    throw ("not_found: database not found: " ++ source.db)
  else if s.catalog.lookup target.db = none then
    throw ("not_found: database not found: " ++ target.db)
  else
    match s.getSchema source, s.getSchema target, s.tables source with
    | .error _, _, _ => throw ("not_found: table not found: " ++ source.db ++ "." ++ source.table)
    | .ok _, .ok _, _ =>
      throw ("conflict: table already exists: " ++ target.db ++ "." ++ target.table)
    | .ok _, .error _, none =>
      throw ("not_found: table not found: " ++ source.db ++ "." ++ source.table)
    | .ok schema, .error _, some data =>
      set { s with
        catalog := Engine.putSchema (removeSchema s.catalog source) target (bumpTableVersion schema)
        tables := Function.update (Function.update s.tables source none) target (some data)
        schemaVersions := Function.update (Function.update s.schemaVersions source none) target
          (some (max (saturatingSucc (s.schemaVersionFor source)) 1)) }
      Engine.persistCatalog io.toIo
      Engine.persistTable text io.toIo target
      removeFiles io source

/-- The tables of the catalog. -/
def Engine.tableKeys (s : Engine) : List TableKey :=
  s.catalog.entries.flatMap fun db => db.2.keys.map fun table => ⟨db.1, table⟩

def checkpointForShutdown (text : LitsText) (io : Io) : EStateM String Engine Unit := do
  Engine.persistCatalog io
  let s ← get
  s.tableKeys.foldlM (fun _ key => do
    let s ← get
    if !s.refused key then Engine.persistTable text io key) ()
  modify fun s => Engine.walTruncate { s with dirtyTables := [], mutationsSinceFlush := 0 }

end Definition

section Merge

structure CausalityDependency where
  table : String
  v : Option ℕ := none
  view : Option Bool := none
  changeSeq : Option ℕ := none

structure CausalityToken where
  format : String
  deps : List CausalityDependency

def causalityFormatV1 : String := "etag_chain_v1"

def causalityFormatV2 : String := "vector_clock_v2"

/-- `ensure_min_causality` with the one table of a merge as what is current. -/
def ensureMinCausality (min : CausalityToken) (table : String) (version : ℕ) : Except String Unit :=
  if min.format ≠ causalityFormatV1 ∧ min.format ≠ causalityFormatV2 then
    .error "invalid_request: unsupported causality format"
  else min.deps.forM fun dep =>
    if dep.view.getD false || dep.changeSeq.isSome || dep.table ≠ table then .ok ()
    else match dep.v with
      | none => .error "invalid_request: malformed min_causality"
      | some req => if version < req then .error "causality_not_satisfied" else .ok ()

/-- A valid merge policy: how it merges a stored row with an incoming one, and whether it rejects
every conflict. -/
structure MergePolicy where
  merge : RowObject → RowObject → Except String RowObject
  rejects : Bool

structure MergeApplyParams where
  pk : List Lit
  incoming : RowObject
  policy : Except String MergePolicy
  expectedEtag : Option String := none
  minCausality : Option CausalityToken := none

structure MergeApplyResult where
  applied : Bool
  conflict : Bool
  merged : RowObject
  etag : Option String
  conflicts : List String

/-- A merge that changes nothing. -/
def unapplied (merged : RowObject) (etag : Option String) (conflicts : List String) :
    MergeApplyResult :=
  { applied := false, conflict := true, merged, etag, conflicts }

def incomingPkConflict (schema : TableSchema) (pk : List Lit) (incoming : RowObject) : Bool :=
  (schema.primaryKey.zip pk).any fun (col, expected) => (incoming col).any (· != expected)

/-- A row that a merge would write, or what comes of it when a column is null that must not be. -/
def checkMerged (schema : TableSchema) (pk : List Lit) (merged : RowObject) (etag : Option String)
    (conflicts : List String) : Except String (RowObject × Option MergeApplyResult) := do
  let merged ← ensurePkValues schema pk merged
  return (merged, if (notNullViolation schema merged).isSome then
    some (unapplied merged etag (conflicts ++ ["constraint"])) else none)

/-- A changed row in its place, with the time at which it was committed before. -/
def Table.mergeInto (st : Stamp) (t : Table) (idx : ℕ) (entry : RowEntry) (merged : RowObject) :
    Table :=
  { schema := bumpTableVersion t.schema
    data := t.data.setRow idx
      { st.entry t.schema 0 merged false with commitTsMs := entry.commitTsMs } }

def appliedMerge (st : Stamp) (schema : TableSchema) (merged : RowObject)
    (conflicts : List String) : MergeApplyResult where
  applied := true
  conflict := !conflicts.isEmpty
  merged := merged
  etag := some (st.ext.rowEtag merged (nextRowVersion schema))
  conflicts := conflicts

def mergeExisting (st : Stamp) (m : MergeApplyParams) (policy : MergePolicy) (t : Table) (idx : ℕ)
    (entry : RowEntry) : Except String (MergeApplyResult × Table) :=
  let currentEtag := some (st.ext.rowEtag entry.row entry.version)
  if entry.deleted then
    if m.expectedEtag.isSome then do
      let (merged, violation) ← checkMerged t.schema m.pk m.incoming currentEtag ["write_write"]
      return (violation.getD (unapplied merged none ["write_write"]), t)
    else do
      let merged ← policy.merge (fun _ => none) m.incoming
      match ← checkMerged t.schema m.pk merged currentEtag [] with
      | (_, some violation) => return (violation, t)
      | (merged, none) =>
        return (appliedMerge st t.schema merged [], t.mergeInto st idx entry merged)
  else do
    let conflicts := if m.expectedEtag.any (some · ≠ currentEtag) then ["write_write"] else []
    let merged ← policy.merge entry.row m.incoming
    match ← checkMerged t.schema m.pk merged currentEtag conflicts with
    | (_, some violation) => return (violation, t)
    | (merged, none) =>
      if !conflicts.isEmpty && policy.rejects then
        return (unapplied entry.row currentEtag conflicts, t)
      else return (appliedMerge st t.schema merged conflicts, t.mergeInto st idx entry merged)

def mergeNew (st : Stamp) (m : MergeApplyParams) (t : Table) :
    Except String (MergeApplyResult × Table) :=
  if m.expectedEtag.isSome then do
    let (merged, violation) ← checkMerged t.schema m.pk m.incoming none ["write_write"]
    return (violation.getD (unapplied merged none ["write_write"]), t)
  else do
    match ← checkMerged t.schema m.pk m.incoming none [] with
    | (_, some violation) => return (violation, t)
    | (merged, none) =>
      return (appliedMerge st t.schema merged [],
        { schema := bumpTableVersion t.schema
          data := t.data.pushRow (st.ext.text m.pk) (st.entry t.schema 0 merged false) })

/-- The entry that the primary-key index has for a key. -/
def TableData.entryAt (d : TableData) (key : String) : Option (ℕ × RowEntry) :=
  (d.pkIndex key).bind fun idx => (d.rows[idx]?).map fun entry => (idx, entry)

def mergeTable (st : Stamp) (key : TableKey) (m : MergeApplyParams) (policy : MergePolicy)
    (t : Table) : Except String (MergeApplyResult × Table) :=
  if t.schema.primaryKey = [] then .error "invalid_request: table has no primary key"
  else if m.pk.length ≠ t.schema.primaryKey.length then
    .error "invalid_request: primary key length mismatch"
  else
    let existing := t.data.entryAt (st.ext.text m.pk)
    let currentEtag := existing.map fun (_, entry) => st.ext.rowEtag entry.row entry.version
    let causality := m.minCausality.map fun min =>
      ensureMinCausality min (key.db ++ "." ++ key.table) t.schema.tableVersion
    match causality with
    | some (.error e) =>
      if e ≠ "causality_not_satisfied" then .error e
      else match existing.filter fun (_, entry) => !entry.deleted with
        | some (_, entry) => .ok (unapplied entry.row currentEtag ["dependency"], t)
        | none => do
          let row ← ensurePkValues t.schema m.pk m.incoming
          return (unapplied row currentEtag ["dependency"], t)
    | _ =>
      if incomingPkConflict t.schema m.pk m.incoming then
        .ok (unapplied m.incoming currentEtag ["constraint"], t)
      else match existing with
        | some (idx, entry) => mergeExisting st m policy t idx entry
        | none => mergeNew st m t

def mergeApply (ext : Externals) (io : Io) (now : ℕ → ℕ) (key : TableKey) (m : MergeApplyParams) :
    EStateM String Engine MergeApplyResult := do
  match m.policy with
  | .error e => throw e
  | .ok policy =>
    let st : Stamp := ⟨ext, now, (← get).schemaVersionFor key⟩
    let result ← Engine.onTable ext.text key fun t =>
      match mergeTable st key m policy t with
      | .error e => .error e t
      | .ok (result, t') => .ok result t'
    if result.applied then
      Engine.persistCatalog io
      Engine.persistTable ext.text io key
    return result

end Merge

end SkeinDB.Tables
