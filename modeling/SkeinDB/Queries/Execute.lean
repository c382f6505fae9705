import SkeinDB.Queries.IndexScan
import SkeinDB.Queries.Interned
import SkeinDB.Queries.Syntax
import SkeinDB.Transition.Fallible

/-!
# What a SELECT reads

`skeindb/src/engine.rs`: `execute_select` answers a query from a column snapshot, from the rows of
a single table or from the product of its FROM clause. A name stands for a view where there is one
and for a table otherwise; the WITH clause is not looked at. Every access to rows is noted, with
what is found there.
-/
namespace SkeinDB.Queries
open SkeinDB.Tables SkeinDB.Transition

structure View where
  columns : List String
  rows : List (List Lit) := []
  lastChangeSeq : ℕ := 0
  stale : Bool := false

structure ObliviousPolicy where
  level : String := "off"
  padToMultiple : Option ℕ := none
  targetRows : Option ℕ := none
  shuffle : Option Bool := none

/-- The columns of a row, by name. -/
abbrev RowValues := String → Option Lit

/-- The engine as far as a SELECT can see it. A column snapshot is given for the columns that are
required, the number of rows of its table and the number of rows that an index would visit. -/
structure ReadEngine extends Engine where
  views : TableKey → Option View := fun _ => none
  obliviousPolicies : TableKey → Option ObliviousPolicy := fun _ => none
  schemaFlags : TableKey → Option (String → Bool) := fun _ => none
  indexOrder : TableKey → List String := fun _ => []
  snapshotScan : TableKey → List String → ℕ → Option ℕ → Option (List RowValues) :=
    fun _ _ _ _ => none

/-- What the engine holds under a name. -/
structure Holding where
  view : Option View
  schema : Except String TableSchema
  table : Except String Table
  policy : ObliviousPolicy
  flags : Option (String → Bool)
  indexOrder : List String
  snapshotScan : List String → ℕ → Option ℕ → Option (List RowValues)

def ReadEngine.holding (e : ReadEngine) (key : TableKey) : Holding where
  view := e.views key
  schema := e.getSchema key
  table := e.getTable key
  policy := (e.obliviousPolicies key).getD {}
  flags := e.schemaFlags key
  indexOrder := e.indexOrder key
  snapshotScan := e.snapshotScan key

inductive Read
  | view (key : TableKey) (view : View)
  | table (key : TableKey) (table : Table)
  | snapshot (key : TableKey) (rows : List RowValues)

def Read.key : Read → TableKey
  | .view key _ => key
  | .table key _ => key
  | .snapshot key _ => key

abbrev Reading := EStateM String (List Read)

def note (read : Read) : Reading Unit := modify (· ++ [read])

def answered {α : Type} : Except String α → Reading α
  | .ok a => pure a
  | .error e => throw e

abbrev ColumnRefs := List (Option String × String)

/-- The forms of expressions that are not spelled out: the columns they name, with whether they
hold a subquery, and what they are in HAVING; the rows near a vector that an order asks for; and
the numbers of the generator that is seeded by a table and its padded size. -/
structure SelectSemantics (X ι : Type) extends Semantics X where
  text : LitsText
  ids : Interning ι
  otherCols : X → ColumnRefs × Bool
  otherHaving : List (SelectItem X) → X → Except String X
  vectorCandidates : Table → List (OrderBy X) → List Lit → Option (List ℕ)
  nextU64 : BaseTableRef → (targetRows counter : ℕ) → ℕ

section Columns
variable {X : Type} (otherCols : X → ColumnRefs × Bool)

def joinRefs (xs : List (ColumnRefs × Bool)) : ColumnRefs × Bool :=
  (xs.flatMap (·.1), xs.any (·.2))

mutual

def collectExprCols : Expr X → ColumnRefs × Bool
  | .col col table => ([(table, col)], false)
  | .lit _ => ([], false)
  | .param _ => ([], false)
  | .op _ a b vargs list lo hi =>
    joinRefs (colsOperand a ++ colsOperand b ++ colsOperands vargs ++ colsOperands list ++
      colsOperand lo ++ colsOperand hi)
  | .other x => otherCols x

def colsOperand : Option (Expr X) → List (ColumnRefs × Bool)
  | none => []
  | some e => [collectExprCols e]

def colsOperands : Option (List (Expr X)) → List (ColumnRefs × Bool)
  | none => []
  | some es => colsEach es

def colsEach : List (Expr X) → List (ColumnRefs × Bool)
  | [] => []
  | e :: es => collectExprCols e :: colsEach es

end

/-- The columns of the one table that the expressions name, where they name no other. -/
def collectSingleTableExprColumns (name : String) (exprs : List (Expr X)) : Option (List String) :=
  let (refs, hasSubquery) := joinRefs (exprs.map (collectExprCols otherCols))
  if hasSubquery || refs.any (fun ref => ref.1.any (· != name)) then none
  else some ((refs.map (·.2)).dedup.mergeSort (· ≤ ·))

end Columns

section Having
variable {X : Type} (otherHaving : List (SelectItem X) → X → Except String X)
  (projection : List (SelectItem X))

def projectionMatchesCol (col : String) (table : Option String) (item : SelectItem X) : Bool :=
  (table.isNone && item.alias?.any (eqIgnoreAsciiCase col)) ||
    match item.expr with
    | .col itemCol itemTable => eqIgnoreAsciiCase col itemCol &&
        table.all fun name => itemTable.any (eqIgnoreAsciiCase name)
    | _ => false

def havingColumn (col : String) (table : Option String) : Except String (Expr X) :=
  match projection.find? fun item => table.isNone && item.alias?.any (eqIgnoreAsciiCase col) with
  | some item => .ok item.expr
  | none =>
    if projection.any (projectionMatchesCol col table) then .ok (.col col table)
    else .error
      "GROUP BY compatibility HAVING supports only grouped projected columns or aliases"

mutual

def rewriteHaving : Expr X → Except String (Expr X)
  | .lit lit => .ok (.lit lit)
  | .param param => .ok (.param param)
  | .col col table => havingColumn projection col table
  | .op op a b vargs list lo hi => do
    .ok (.op op (← havingOperand a) (← havingOperand b) (← havingOperands vargs)
      (← havingOperands list) (← havingOperand lo) (← havingOperand hi))
  | .other x => (otherHaving projection x).map .other

def havingOperand : Option (Expr X) → Except String (Option (Expr X))
  | none => .ok none
  | some e => (rewriteHaving e).map some

def havingOperands : Option (List (Expr X)) → Except String (Option (List (Expr X)))
  | none => .ok none
  | some es => (havingEach es).map some

def havingEach : List (Expr X) → Except String (List (Expr X))
  | [] => .ok []
  | e :: es => do
    let e ← rewriteHaving e
    let es ← havingEach es
    .ok (e :: es)

end

def normalizeGroupByCol (base : BaseTableRef) : Expr X → Option String
  | .col col table =>
    if col = "*" then none
    else if table.all fun name =>
        eqIgnoreAsciiCase name base.table || eqIgnoreAsciiCase name base.name then
      some (toAsciiLowercase col)
    else none
  | _ => none

def groupedLike (base : BaseTableRef) (groupBy : List (Expr X)) : Bool :=
  match groupBy.mapM (normalizeGroupByCol base),
      projection.mapM fun item => normalizeGroupByCol base item.expr with
  | some grouped, some projected => grouped.all (· ∈ projected)
  | _, _ => false

/-- A GROUP BY over the projected columns of one table is a DISTINCT. -/
def selectGroupByDedupCompatible (select : SelectBody X) : Bool :=
  match select.groupBy, select.tables with
  | some groupBy, some [.base base] =>
    !select.projection.isEmpty && !groupBy.isEmpty && groupedLike select.projection base groupBy
  | _, _ => false

def selectEffectivePredicate (select : SelectBody X) : Except String (Option (Expr X)) :=
  if select.groupBy.isNone && select.having.isNone then .ok select.filter
  else if !selectGroupByDedupCompatible select then
    .error "group_by/having not implemented in this prototype"
  else match select.having with
    | none => .ok select.filter
    | some having => do
      let having ← rewriteHaving otherHaving select.projection having
      .ok (some (match select.filter with
        | some filter => .op "and" (some filter) (some having) none none none none
        | none => having))

end Having

section Rows
variable {X ι : Type} [DecidableEq ι] (sem : SelectSemantics X ι) (args : List Lit)

def rowCtx (name : String) (columns : List String) (values : RowValues) : RowCtx :=
  columns.foldl (fun ctx column =>
    match values column with
    | none => ctx
    | some value => ctx.insert (name ++ "." ++ column) value) ∅

/-- A SELECT over one table with the compiled form of its predicate. The rows that the compiled
form decides are projected from contexts of fewer columns. -/
structure RowPlan (X ι : Type) extends TableSelect X where
  outputColumns : List String
  plan : Option (InternedPredicatePlan ι)

variable (p : RowPlan X ι)

def RowPlan.decides (values : RowValues) : Option Bool :=
  p.plan.bind (compiledInternedPredicateMatchesLookup sem.ids values)

/-- The context in which a row that is kept is projected. -/
def RowPlan.context (values : RowValues) : Except String (Option RowCtx) :=
  match p.predicate with
  | none => .ok (some (rowCtx p.base.name p.outputColumns values))
  | some pred =>
    match p.decides sem values with
    | some true => .ok (some (rowCtx p.base.name p.outputColumns values))
    | some false => .ok none
    | none => do
      let ctx := rowCtx p.base.name p.columns values
      if ← evalPredicate sem.toSemantics (ctxScope ctx) args pred then .ok (some ctx) else .ok none

def RowPlan.project (ctx : RowCtx) : Except String (List Lit) :=
  p.projection.mapM (evalExpr sem.toSemantics (ctxScope ctx) args)

def RowPlan.output (values : RowValues) : Except String (Option (List Lit × List Lit)) := do
  match ← p.context sem args values with
  | none => .ok none
  | some ctx =>
    let row ← p.project sem args ctx
    let keys ← p.orderBy.mapM fun ob => evalExpr sem.toSemantics (ctxScope ctx) args ob.expr
    .ok (some (keys, row))

def RowPlan.rows (source : List RowValues) : Except String (List (List Lit)) := do
  let items ← source.mapM (p.output sem args)
  .ok (finishRows sem.fmt sem.text p.toTableSelect items.reduceOption)

def selectBatchSize : ℕ := 1024

/-- A batch is filtered as a whole before it is projected. -/
def RowPlan.batch (batch : List RowValues) : Except String (List (List Lit)) := do
  let selected ← batch.filterM fun values => do
    let ctx ← p.context sem args values
    .ok ctx.isSome
  selected.mapM fun values => p.project sem args (rowCtx p.base.name p.outputColumns values)

def RowPlan.batches (source : List RowValues) : Except String (List (List Lit)) := do
  let batches ← (source.toChunks selectBatchSize).mapM (p.batch sem args)
  .ok batches.flatten

def batchValues (schema : TableSchema) (columns : List String) (row : RowObject) : RowValues :=
  fun column =>
    if column ∈ columns then some ((schemaRowValue schema row column).getD .null) else none

end Rows

/-- What a SELECT over the one table of its FROM clause evaluates. -/
structure SingleTable (X : Type) where
  query : Query X
  select : SelectBody X
  base : BaseTableRef
  predicate : Option (Expr X)

namespace SingleTable
variable {X ι : Type} [DecidableEq ι] (sem : SelectSemantics X ι) (h : Holding) (args : List Lit)
  (asOfMs : Option ℕ) (q : SingleTable X)

def distinct : Bool := q.select.distinct.getD false || selectGroupByDedupCompatible q.select

def outputExprs : List (Expr X) :=
  q.select.projection.map (·.expr) ++ q.query.orderBy.map (·.expr)

def queryColumns : Option (List String) :=
  collectSingleTableExprColumns sem.otherCols q.base.name
    (q.select.projection.map (·.expr) ++ q.predicate.toList ++ q.query.orderBy.map (·.expr))

def compilePlan (schema : TableSchema) : Option (InternedPredicatePlan ι) := do
  let flags ← h.flags
  let pred ← q.predicate
  let aliases := if eqIgnoreAsciiCase q.base.table q.base.name then [q.base.name]
    else [q.base.name, q.base.table]
  compileInternedPredicateExpr ⟨schema, flags, aliases, sem.ids⟩ args pred

/-- The plan over contexts of the columns that are given. -/
def rowPlan (schema : TableSchema) (columns : List String) : RowPlan X ι :=
  let plan := q.compilePlan sem h args schema
  { base := q.base
    columns := columns
    projection := q.select.projection.map (·.expr)
    predicate := q.predicate
    orderBy := q.query.orderBy
    distinct := q.distinct
    limit := q.query.limit
    outputColumns := if plan.isSome then
      (collectSingleTableExprColumns sem.otherCols q.base.name q.outputExprs).getD columns
      else columns
    plan := plan }

/-- The rows near the vector of the order, where they suffice for the limit. -/
def vectorRows (t : Table) : Option (List ℕ) := do
  let clause ← q.query.limit
  let limit ← clause.limit
  let candidates ← sem.vectorCandidates t q.query.orderBy args
  let required := min (limit + clause.offset.getD 0) u64Max
  if 0 < required && required ≤ candidates.length then some candidates else none

def indexRows : Option (List ℕ) :=
  indexPrefilterCandidates sem.text ⟨h.view.isSome, h.policy.level, h.table.toOption⟩ h.indexOrder
    q.base q.predicate args

def visibleValues (t : Table) (entries : List RowEntry) : List RowValues :=
  (entries.filter (rowVisibleAt asOfMs)).map fun entry => schemaRowValue t.schema entry.row

/-- The answer from the rows of the table. -/
def baseTableRows (t : Table) : Except String (List (List Lit)) :=
  let columns := (q.queryColumns sem).getD (t.schema.columns.map (·.name))
  let plan := q.rowPlan sem h args t.schema columns
  let shortcut := if q.distinct then none else q.vectorRows sem args t
  match shortcut.or (q.indexRows sem h args) with
  | some candidates => plan.rows sem args (visibleValues asOfMs t (candidateRows t candidates))
  | none => do
    if !q.distinct && q.query.limit.isNone && q.query.orderBy.isEmpty &&
        t.data.isResident then
      plan.batches sem args ((t.data.rows.filter (rowVisibleAt asOfMs)).map fun entry =>
        batchValues t.schema columns entry.row)
    else
      let entries ← t.data.scanRows
      plan.rows sem args (visibleValues asOfMs t entries)

/-- The answer from a column snapshot, where the cost model prefers one. -/
def trySnapshot : Reading (Option (List (List Lit))) :=
  if !q.query.ctes.isEmpty || asOfMs.isSome || q.query.lock.isSome then pure none
  else if h.view.isSome || h.policy.level ≠ "off" then pure none
  else match q.queryColumns sem, h.table with
    | some required, .ok t => do
      note (.table q.base.key t)
      let live := t.data.rows.countP (rowVisibleAt none)
      let indexed := (q.indexRows sem h args).map List.length
      if (q.vectorRows sem args t).isSome then pure none
      else match h.snapshotScan required live indexed with
        | none => pure none
        | some scan => do
          note (.snapshot q.base.key scan)
          let rows ← answered ((q.rowPlan sem h args t.schema required).rows sem args scan)
          pure (some rows)
    | _, _ => pure none

def tryBaseTable : Reading (Option (List (List Lit))) :=
  if h.view.isSome || h.policy.level ≠ "off" then pure none
  else do
    let t ← answered h.table
    note (.table q.base.key t)
    let rows ← answered (q.baseTableRows sem h args asOfMs t)
    pure (some rows)

end SingleTable

section From
variable {X ι : Type} (sem : SelectSemantics X ι) (held : TableKey → Holding) (args : List Lit)

/-- `extend`: what both hold is taken from the second. -/
def extendCtx (a b : RowCtx) : RowCtx := b ∪ a

def onHolds (on : Option (Expr X)) (ctx : RowCtx) : Except String Bool :=
  match on with
  | none => .ok true
  | some e => evalPredicate sem.toSemantics (ctxScope ctx) args e

/-- The merged rows that match, or the one that stands for none. -/
def matchesOr (on : Option (Expr X)) (unmatched : RowCtx) (merged : List RowCtx) :
    Except String (List RowCtx) := do
  let found ← merged.filterM (onHolds sem args on)
  .ok (if found.isEmpty then [unmatched] else found)

def fullJoin (on : Option (Expr X)) (left right : List RowCtx) (leftNulls rightNulls : RowCtx) :
    Except String (List RowCtx) := do
  let hits ← left.mapM fun a => right.mapM fun b => onHolds sem args on (extendCtx a b)
  let rows := (left.zip hits).flatMap fun (a, matched) =>
    let found := ((right.zip matched).filter (·.2)).map fun (b, _) => extendCtx a b
    if found.isEmpty then [extendCtx a rightNulls] else found
  let unmatched := right.zipIdx.filter fun (_, i) => !hits.any fun matched => matched.getD i false
  .ok (rows ++ unmatched.map fun (b, _) => extendCtx leftNulls b)

def joinRows (type : JoinType) (on : Option (Expr X)) (left right : List RowCtx)
    (leftNulls rightNulls : RowCtx) : Except String (List RowCtx) :=
  match type with
  | .cross => .ok (left.flatMap fun a => right.map (extendCtx a))
  | .inner => do
    let rows ← left.mapM fun a => (right.map (extendCtx a)).filterM (onHolds sem args on)
    .ok rows.flatten
  | .left => do
    let rows ← left.mapM fun a =>
      matchesOr sem args on (extendCtx a rightNulls) (right.map (extendCtx a))
    .ok rows.flatten
  | .right => do
    let rows ← right.mapM fun b =>
      matchesOr sem args on (extendCtx leftNulls b) (left.map (extendCtx · b))
    .ok rows.flatten
  | .full => fullJoin sem args on left right leftNulls rightNulls

def nullCtx (name : String) (columns : List String) : RowCtx :=
  rowCtx name columns fun _ => some .null

def nullRowCtxForRef : TableRef X → Except String RowCtx
  | .base base =>
    match (held base.key).view with
    | some view => .ok (nullCtx base.name view.columns)
    | none => (held base.key).schema.map fun schema =>
        nullCtx base.name (schema.columns.map (·.name))
  | .join _ left right _ => do
    let a ← nullRowCtxForRef left
    let b ← nullRowCtxForRef right
    .ok (extendCtx a b)
  | .subquery _ _ => .error "subqueries in FROM are not implemented"

/-- The null rows of the sides that a join can leave unmatched. -/
def joinNulls (type : JoinType) (left right : TableRef X) : Except String (RowCtx × RowCtx) :=
  match type with
  | .left => (nullRowCtxForRef held right).map fun nulls => (∅, nulls)
  | .right => (nullRowCtxForRef held left).map fun nulls => (nulls, ∅)
  | .full => do
    let rightNulls ← nullRowCtxForRef held right
    let leftNulls ← nullRowCtxForRef held left
    .ok (leftNulls, rightNulls)
  | _ => .ok (∅, ∅)

def obliviousTarget (policy : ObliviousPolicy) (actual : ℕ) : ℕ :=
  let padded := match policy.padToMultiple with
    | some multiple => if 0 < multiple ∧ 0 < actual then
        ((actual + multiple - 1) / multiple * multiple) else actual
    | none => actual
  max padded (policy.targetRows.getD 0)

/-- The loop of `shuffle_rows` from an index down, with the numbers that are drawn. -/
def shuffleLoop {α : Type} (next : ℕ → ℕ) : (i counter : ℕ) → Array α → Array α
  | 0, _, rows => rows
  | i + 1, counter, rows =>
    shuffleLoop next i (counter + 1) (rows.swapIfInBounds (i + 1) (next counter % (i + 2)))

def shuffleRows {α : Type} (next : ℕ → ℕ) (rows : List α) : List α :=
  (shuffleLoop next (rows.length - 1) 0 rows.toArray).toList

def shuffled (policy : ObliviousPolicy) (base : BaseTableRef) (rows : List RowCtx) : List RowCtx :=
  if policy.level ≠ "off" && policy.shuffle.getD false then
    shuffleRows (sem.nextU64 base (obliviousTarget policy rows.length)) rows
  else rows

def viewRowCtx (name : String) (columns : List String) (row : List Lit) : RowCtx :=
  (columns.zip row).foldl (fun ctx cell => ctx.insert (name ++ "." ++ cell.1) cell.2) ∅

def scanTable (base : BaseTableRef) (asOfMs : Option ℕ) : Reading (List RowCtx) :=
  match (held base.key).view with
  | some view => do
    note (.view base.key view)
    pure (view.rows.map (viewRowCtx base.name view.columns))
  | none => do
    let t ← answered (held base.key).table
    note (.table base.key t)
    let entries ← answered (t.data.scanRows)
    let rows := (entries.filter (rowVisibleAt asOfMs)).map fun entry =>
      rowCtx base.name (t.schema.columns.map (·.name)) (schemaRowValue t.schema entry.row)
    pure (shuffled sem (held base.key).policy base rows)

/-- The sides of a join are read as they are now, whatever the time that is asked for. -/
def evalFrom (asOfMs : Option ℕ) : TableRef X → Reading (List RowCtx)
  | .base base => scanTable sem held base asOfMs
  | .join type left right on => do
    let leftRows ← evalFrom none left
    let rightRows ← evalFrom none right
    let nulls ← answered (joinNulls held type left right)
    answered (joinRows sem args type on leftRows rightRows nulls.1 nulls.2)
  | .subquery _ _ => throw "subqueries in FROM are not implemented"

/-- Further items of the FROM clause are joined without a condition. -/
def evalProduct (asOfMs : Option ℕ) (ctxs : List RowCtx) :
    List (TableRef X) → Reading (List RowCtx)
  | [] => pure ctxs
  | table :: tables => do
    let rows ← evalFrom sem held args asOfMs table
    evalProduct asOfMs (ctxs.flatMap fun a => rows.map (extendCtx a)) tables

end From

section Execute
variable {X ι : Type} [DecidableEq ι] (sem : SelectSemantics X ι) (held : TableKey → Holding)
  (args : List Lit) (asOfMs : Option ℕ)

def productRows (query : Query X) (select : SelectBody X) (predicate : Option (Expr X))
    (ctxs : List RowCtx) : Except String (List (List Lit)) := do
  let kept ← ctxs.filterM (onHolds sem args predicate)
  let items ← kept.mapM fun ctx => do
    let row ← (select.projection.map (·.expr)).mapM (evalExpr sem.toSemantics (ctxScope ctx) args)
    let keys ← query.orderBy.mapM fun ob => evalExpr sem.toSemantics (ctxScope ctx) args ob.expr
    .ok (keys, row)
  .ok (finishRows sem.fmt sem.text
    { base := ⟨"", "", none⟩, columns := [], projection := [], orderBy := query.orderBy,
      distinct := select.distinct.getD false || selectGroupByDedupCompatible select,
      limit := query.limit } items)

/-- The rows of the first item of the FROM clause. An index is used where the table is the only
one. -/
def evalFirst (q : Option (SingleTable X)) (first : TableRef X) : Reading (List RowCtx) :=
  match q with
  | none => evalFrom sem held args asOfMs first
  | some q =>
    match q.indexRows sem (held q.base.key) args with
    | none => evalFrom sem held args asOfMs first
    | some candidates => do
      let t ← answered (held q.base.key).table
      note (.table q.base.key t)
      pure (((candidateRows t candidates).filter (rowVisibleAt asOfMs)).map fun entry =>
        rowCtx q.base.name (t.schema.columns.map (·.name)) (schemaRowValue t.schema entry.row))

/-- The query as one over a single table, where its FROM clause is one. -/
def singleTable (query : Query X) (select : SelectBody X) (predicate : Option (Expr X)) :
    List (TableRef X) → Option (SingleTable X)
  | [.base base] => some ⟨query, select, base, predicate⟩
  | _ => none

/-- The paths that answer from a single table. -/
def trySingleTable : Option (SingleTable X) → Reading (Option (List (List Lit)))
  | none => pure none
  | some q => do
    match ← q.trySnapshot sem (held q.base.key) args asOfMs with
    | some rows => pure (some rows)
    | none => q.tryBaseTable sem (held q.base.key) args asOfMs

def evalSelect (query : Query X) (select : SelectBody X) (predicate : Option (Expr X)) :
    List (TableRef X) → Reading (List (List Lit))
  | [] => throw "SELECT without FROM is not implemented"
  | first :: rest => do
    let single := singleTable query select predicate (first :: rest)
    match ← trySingleTable sem held args asOfMs single with
    | some rows => pure rows
    | none => do
      let ctxs ← evalFirst sem held args asOfMs single first
      let ctxs ← evalProduct sem held args asOfMs ctxs rest
      answered (productRows sem args query select predicate ctxs)

def executeSelect (query : Query X) : Reading (List (List Lit)) :=
  match query.body with
  | .setop _ _ _ _ => throw "set operations not implemented in this prototype"
  | .select select => do
    let predicate ← answered (selectEffectivePredicate sem.otherHaving select)
    evalSelect sem held args asOfMs query select predicate (select.tables.getD [])

end Execute

end SkeinDB.Queries
