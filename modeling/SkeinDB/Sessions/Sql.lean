import SkeinDB.Queries.Interned
import SkeinDB.Tables.Statements

/-!
# SQL statements that write rows

`skeindb/src/server.rs`: `sql_exec` on the plans of INSERT, UPDATE and DELETE. What the parser
makes of a text is taken from it; what a WHERE clause says of a row is evaluated as in a query.
-/
namespace SkeinDB.Sessions
open SkeinDB.Queries SkeinDB.Tables SkeinDB.Transition

inductive InsertMode
  | insert
  | ignore
  | replace
  deriving DecidableEq

inductive InsertDupValue
  | literal (lit : Lit)
  | valuesRef (column : String)

structure InsertDupAssign where
  targetCol : String
  value : InsertDupValue

inductive SqlPlan (X : Type)
  | insert (mode : InsertMode) (table : TableKey) (columns : List String) (rows : List RowObject)
      (onDuplicate : Option (List InsertDupAssign))
  | update (table : TableKey) (set : List (String × Expr X)) (whereExpr : Expr X)
      (limit : Option ℕ)
  | delete (table : TableKey) (whereExpr : Expr X) (limit : Option ℕ)

/-- What `sql_exec` takes from elsewhere: the parser, the comment with a time that it strips, the
flags under which predicates are compiled, and whether the query of `INSERT IGNORE` for a row
finds one. -/
structure Sql (X ι : Type) extends Semantics X where
  ext : Externals
  ids : Interning ι
  flags : TableKey → Option (String → Bool)
  extractSkeinAsOfHint : String → String
  parseSqlPlan : String → Option String → Except String (SqlPlan X)
  rowExists : Engine → TableKey → (probeCol : String) → Expr X → Except String Bool

/-- The disk and the clock during a statement. -/
structure Surroundings where
  io : Io := {}
  now : ℕ → ℕ

section Exec
variable {X ι : Type} [DecidableEq ι] (sql : Sql X ι) (at_ : Surroundings)

/-- The rows of a table for which an expression is true. -/
def whereFilter (table : TableKey) (schema : TableSchema) (whereExpr : Expr X)
    (limit : Option ℕ) : Filter where
  predicate _ row := evalPredicate sql.toSemantics (rowScope row) [] whereExpr
  plan := do
    let flags ← sql.flags table
    let plan ← compileInternedPredicateExpr ⟨schema, flags, [], sql.ids⟩ [] whereExpr
    return fun row => compiledInternedPredicateMatchesLookup sql.ids row plan
  limit := limit

def whereUpdate (table : TableKey) (schema : TableSchema) (set : List (String × Expr X))
    (whereExpr : Expr X) (limit : Option ℕ) : Update where
  toFilter := whereFilter sql table schema whereExpr limit
  assignments := set.map fun (column, e) =>
    (column, fun _ row => evalExpr sql.toSemantics (rowScope row) [] e)

def sqlInsert (table : TableKey) (rows : List RowObject) : EStateM String Engine WriteResult :=
  dataInsert sql.ext at_.io at_.now table rows none

def sqlUpdate (table : TableKey) (set : List (String × Expr X)) (whereExpr : Expr X)
    (limit : Option ℕ) : EStateM String Engine WriteResult := do
  match (← get).getTable table with
  | .error e => throw e
  | .ok t =>
    dataUpdateExprs sql.ext at_.io at_.now table
      (whereUpdate sql table t.schema set whereExpr limit)

def sqlDelete (table : TableKey) (whereExpr : Expr X) (limit : Option ℕ) :
    EStateM String Engine WriteResult := do
  match (← get).getTable table with
  | .error e => throw e
  | .ok t =>
    dataDelete sql.ext at_.io at_.now table (whereFilter sql table t.schema whereExpr limit)

/-- A row that the table has under the same key is a conflict, other errors are not. -/
def isDuplicateConflictError (e : String) : Bool :=
  e == "conflict" || decide ("duplicate key".toList <:+: e.toList)

/-- Do something else where a conflict is found, after what was done until then. -/
def onConflict {α : Type} (m other : EStateM String Engine α) : EStateM String Engine α := fun s =>
  match m s with
  | .ok a s' => .ok a s'
  | .error e s' => if isDuplicateConflictError e then other s' else .error e s'

def eqExpr (col : String) (lit : Lit) : Expr X :=
  .op "eq" (some (.col col none)) (some (.lit lit)) none none none none

def andExpr (left right : Expr X) : Expr X := .op "and" (some left) (some right) none none none none

/-- The condition that a row has the values of another one in some columns, none of them null. -/
def mysqlRowLookupExpr (row : RowObject) (columns : List String) : Option (Expr X) :=
  columns.foldl (fun expr col => do
    let expr ← expr
    let lit ← row col
    if lit.isNull then none
    else
      let next := eqExpr col lit
      return some (expr.elim next fun prev => andExpr prev next)) (some none) |>.join

def mysqlConflictPredicatesForRow (schema : TableSchema) (row : RowObject) : List (Expr X) :=
  (mysqlRowLookupExpr row schema.primaryKey).toList ++
    (schema.compatIndexes.filter (·.unique)).filterMap fun index =>
      if index.columns = [] then none else mysqlRowLookupExpr row index.columns

/-- What the rows of a statement have done so far. -/
structure Tally where
  affected : ℕ := 0
  lastInsertId : ℕ := 0

def Tally.inserted (tally : Tally) (w : WriteResult) : Tally where
  affected := min (tally.affected + w.affected) u64Max
  lastInsertId := if w.lastInsertId = 0 then tally.lastInsertId else w.lastInsertId

def Tally.result (tally : Tally) : WriteResult := ⟨tally.affected, tally.lastInsertId, none⟩

def insertDupValueFromRow (row : RowObject) : InsertDupValue → Lit
  | .literal lit => lit
  | .valuesRef column => (row column).getD .null

/-- Change the row under the first of the conditions that one has. -/
def updateConflicting (table : TableKey) (set : List (String × Expr X)) :
    List (Expr X) → EStateM String Engine ℕ
  | [] => throw "conflict: ON DUPLICATE KEY UPDATE could not locate the conflicting row"
  | whereExpr :: rest => do
    let result ← sqlUpdate sql at_ table set whereExpr (some 1)
    if 0 < result.affected then return result.affected else updateConflicting table set rest

def insertOrUpdate (table : TableKey) (schema : TableSchema) (assigns : List InsertDupAssign)
    (tally : Tally) (row : RowObject) : EStateM String Engine Tally :=
  let set := (assigns.filter (·.targetCol ≠ "")).map fun assign =>
    (assign.targetCol, Expr.lit (insertDupValueFromRow row assign.value))
  onConflict (tally.inserted <$> sqlInsert sql at_ table [row]) do
    let affected ← updateConflicting sql at_ table set (mysqlConflictPredicatesForRow schema row)
    return { tally with affected := min (tally.affected + affected) u64Max }

def sqlExecInsertOnDuplicate (table : TableKey) (columns : List String) (rows : List RowObject)
    (assigns : List InsertDupAssign) : EStateM String Engine WriteResult := do
  if columns = [] then throw "invalid_request: INSERT column list cannot be empty"
  else if assigns = [] then
    throw "invalid_request: ON DUPLICATE KEY UPDATE requires at least one assignment"
  else
    match (← get).getSchema table with
    | .error e => throw e
    | .ok schema =>
      Tally.result <$> rows.foldlM (insertOrUpdate sql at_ table schema assigns) {}

/-- Whether a row is there already under the first of the columns, where it has a value for it. -/
def probeRow (s : Engine) (table : TableKey) (columns : List String) (row : RowObject) :
    Option (Except String Bool) := do
  let keyCol ← columns.head?
  let keyLit ← row keyCol
  return sql.rowExists s table keyCol (eqExpr keyCol keyLit)

def insertOrIgnore (table : TableKey) (columns : List String) (tally : Tally) (row : RowObject) :
    EStateM String Engine Tally := do
  match probeRow sql (← get) table columns row with
  | some (.error e) => throw e
  | some (.ok true) => return tally
  | _ =>
    onConflict (tally.inserted <$> sqlInsert sql at_ table [row]) (pure tally)

def sqlExecInsertIgnore (table : TableKey) (columns : List String) (rows : List RowObject) :
    EStateM String Engine WriteResult :=
  Tally.result <$> rows.foldlM (insertOrIgnore sql at_ table columns) {}

def deleteConflicting (table : TableKey) (deleted : ℕ) (whereExpr : Expr X) :
    EStateM String Engine ℕ := do
  let removed ← sqlDelete sql at_ table whereExpr none
  return min (deleted + removed.affected) u64Max

def insertOrReplace (table : TableKey) (schema : TableSchema) (tally : Tally) (row : RowObject) :
    EStateM String Engine Tally :=
  onConflict (tally.inserted <$> sqlInsert sql at_ table [row]) do
    let predicates := mysqlConflictPredicatesForRow schema row
    if predicates = [] then throw "conflict: REPLACE could not locate the conflicting row"
    else
      let deleted ← predicates.foldlM (deleteConflicting sql at_ table) 0
      let inserted ← sqlInsert sql at_ table [row]
      return tally.inserted { inserted with
        affected := min (deleted + inserted.affected) u64Max }

def sqlExecReplaceInto (table : TableKey) (rows : List RowObject) :
    EStateM String Engine WriteResult := do
  match (← get).getSchema table with
  | .error e => throw e
  | .ok schema => Tally.result <$> rows.foldlM (insertOrReplace sql at_ table schema) {}

/-- What a statement did, as the session is told. -/
structure SqlResult where
  statement : String
  write : WriteResult

def execInsert (mode : InsertMode) (table : TableKey) (columns : List String)
    (rows : List RowObject) : Option (List InsertDupAssign) → EStateM String Engine WriteResult
  | some assigns => sqlExecInsertOnDuplicate sql at_ table columns rows assigns
  | none =>
    match mode with
    | .insert => sqlInsert sql at_ table rows
    | .ignore => sqlExecInsertIgnore sql at_ table columns rows
    | .replace => sqlExecReplaceInto sql at_ table rows

def execPlan : SqlPlan X → EStateM String Engine SqlResult
  | .insert mode table columns rows onDuplicate =>
    (fun write => ⟨if mode = .replace then "replace" else "insert", write⟩) <$>
      execInsert sql at_ mode table columns rows onDuplicate
  | .update table set whereExpr limit =>
    (fun write => ⟨"update", write⟩) <$> sqlUpdate sql at_ table set whereExpr limit
  | .delete table whereExpr limit =>
    (fun write => ⟨"delete", write⟩) <$> sqlDelete sql at_ table whereExpr limit

def sqlExec (text : String) (defaultDb : Option String) : EStateM String Engine SqlResult :=
  match sql.parseSqlPlan (sql.extractSkeinAsOfHint text) defaultDb with
  | .error e => throw e
  | .ok plan => execPlan sql at_ plan

end Exec

end SkeinDB.Sessions
