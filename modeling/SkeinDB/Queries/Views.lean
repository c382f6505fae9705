import SkeinDB.Changes.Log
import SkeinDB.Codec.Checked
import SkeinDB.Queries.References

/-!
# Refreshing a view

`skeindb/src/engine.rs`: a view holds the rows of its query, an index of their keys and the change
up to which it was refreshed. A refresh takes the view out of the map of views, computes its rows
from the base table or brings them up to date from the changes since, and puts it back.
-/
namespace SkeinDB.Queries
open SkeinDB.Changes SkeinDB.Codec SkeinDB.Tables SkeinDB.Transition

structure ViewRow where
  pk : List Lit
  values : List Lit

structure ViewSourceRow where
  pk : List Lit
  row : RowObject

structure ViewDependency where
  db : String
  table : String
  columns : List String

abbrev SourceRows := AList fun _ : String => ViewSourceRow

structure ViewState (X : Type) where
  db : String
  name : String
  query : Query X
  columns : List String := []
  pkColumns : List String := []
  deps : List ViewDependency := []
  rows : List ViewRow := []
  sourceRows : SourceRows := ∅
  pkIndex : String → Option ℕ := fun _ => none
  lastRefreshMs : ℕ := 0
  lastChangeSeq : ℕ := 0
  stale : Bool := false
  lastRefreshMode : String := ""

inductive ViewAggregateOp
  | count
  | sum
  | avg
  | min
  | max
  deriving DecidableEq

structure ViewAggregateSpec where
  op : ViewAggregateOp
  column : Option String

inductive ViewProjectionSpec
  | groupKey (column : String)
  | aggregate (agg : ViewAggregateSpec)

structure ViewQueryInfo (X : Type) where
  base : BaseTableRef
  select : SelectBody X
  groupKeyColumns : List String
  projectionPlan : List ViewProjectionSpec

structure ViewRefreshStats where
  changeCount : ℕ
  touchedPks : ℕ

/-- A call in an expression. -/
structure ViewCall (X : Type) where
  name : String
  args : List (Expr X)
  distinct : Option Bool

/-- The calls among the expressions that are not spelled out, the name of a projected expression,
the columns of a row, one row of a table that is on disk, and the answer of a column snapshot to
the query of a view. -/
structure ViewSemantics (X ι : Type) extends SelectSemantics X ι where
  call : X → Option (ViewCall X)
  inferSelectName : Expr X → String
  columnsOf : RowObject → List String
  segmentRow : TableKey → String → Except String (Option RowEntry)
  snapshotSelect : BaseTableRef → Query X → Except String (Option (List ViewRow))

/-- The engine as far as views are concerned. -/
structure ViewEngine (X : Type) where
  engine : ReadEngine
  views : TableKey → Option (ViewState X)
  changes : List ChangeEvent := []
  changeSeq : ℕ := 0

section QueryInfo
variable {X ι : Type} (sem : ViewSemantics X ι)

def viewGroupExprColumn (name : String) : Expr X → Except String String
  | .col col table =>
    if table.any (· != name) then
      .error "invalid_request: views cannot reference multiple tables"
    else .ok col
  | _ => .error "invalid_request: grouped views require column GROUP BY expressions"

def viewAggregateOp (name : String) : Except String ViewAggregateOp :=
  match toAsciiLowercase name with
  | "count" => .ok .count
  | "sum" => .ok .sum
  | "avg" => .ok .avg
  | "min" => .ok .min
  | "max" => .ok .max
  | _ => .error "invalid_request: grouped views only support COUNT/SUM/AVG/MIN/MAX"

def viewAggregateSpec (name : String) (call : ViewCall X) : Except String ViewAggregateSpec := do
  if call.distinct.getD false then
    .error "invalid_request: grouped views do not support DISTINCT aggregates"
  else
    let op ← viewAggregateOp call.name
    match op, call.args with
    | .count, [] => .ok ⟨op, none⟩
    | _, [arg] => do .ok ⟨op, some (← viewGroupExprColumn name arg)⟩
    | _, _ => .error "invalid_request: aggregate requires exactly one column argument"

def viewGroupedProjectionSpec (groupKeyColumns : List String) (name : String) :
    Expr X → Except String ViewProjectionSpec
  | .col col table => do
    let column ← viewGroupExprColumn (X := X) name (.col col table)
    if column ∈ groupKeyColumns then .ok (.groupKey column)
    else .error ("invalid_request: grouped views require projected columns to be present in " ++
      "GROUP BY")
  | .other x =>
    match sem.call x with
    | some call => do .ok (.aggregate (← viewAggregateSpec name call))
    | none => .error ("invalid_request: grouped views only support grouped columns and " ++
        "aggregates in projection")
  | _ => .error ("invalid_request: grouped views only support grouped columns and " ++
      "aggregates in projection")

def viewQueryInfo (query : Query X) : Except String (ViewQueryInfo X) := do
  if !query.ctes.isEmpty then .error "invalid_request: views do not support WITH"
  else if !query.orderBy.isEmpty then .error "invalid_request: views do not support ORDER BY"
  else if query.limit.isSome then .error "invalid_request: views do not support LIMIT"
  else if query.lock.isSome then .error "invalid_request: views do not support LOCK"
  else match query.body with
    | .setop .. => .error "invalid_request: views require SELECT"
    | .select select =>
      if select.distinct.getD false then
        .error "invalid_request: views do not support DISTINCT"
      else if select.having.isSome then
        .error "invalid_request: views do not support HAVING"
      else match select.tables with
        | none => .error "invalid_request: views require FROM"
        | some [.base base] => do
          let groupBy := select.groupBy.getD []
          let (refs, hasSubquery) := joinRefs ((select.projection.map (·.expr) ++
            select.filter.toList ++ groupBy).map (collectExprCols sem.otherCols))
          let groupKeyColumns ← groupBy.mapM (viewGroupExprColumn base.name)
          if hasSubquery then .error "invalid_request: views do not support subqueries"
          else if refs.any fun ref => ref.1.any (· != base.name) then
            .error "invalid_request: views cannot reference multiple tables"
          else
            let projectionPlan ← if groupKeyColumns.isEmpty then .ok []
              else select.projection.mapM fun item =>
                viewGroupedProjectionSpec sem groupKeyColumns base.name item.expr
            .ok ⟨base, select, groupKeyColumns, projectionPlan⟩
        | some [_] => .error "invalid_request: views do not support joins or subqueries"
        | some _ => .error "invalid_request: views require single-table FROM"

def viewIsGrouped (info : ViewQueryInfo X) : Bool := !info.groupKeyColumns.isEmpty

def projectionColumns (projection : List (SelectItem X)) : List String :=
  projection.map fun item => item.alias?.getD (sem.inferSelectName item.expr)

end QueryInfo

section Reading
variable {X ι : Type} [DecidableEq ι] (sem : ViewSemantics X ι) (e : ViewEngine X)

def ViewState.toView (view : ViewState X) : View :=
  ⟨view.columns, view.rows.map ViewRow.values, view.lastChangeSeq, view.stale⟩

/-- What a SELECT finds under a name. -/
def ViewEngine.holding (key : TableKey) : Holding :=
  { e.engine with views := fun key => (e.views key).map ViewState.toView : ReadEngine }.holding key

def matchesPredicate (predicate : Option (Expr X)) (ctx : RowCtx) : Except String Bool :=
  match predicate with
  | none => .ok true
  | some pred => evalPredicate sem.toSemantics (ctxScope ctx) [] pred

def buildViewValues (projection : List (SelectItem X)) (ctx : RowCtx) : Except String (List Lit) :=
  projection.mapM fun item => evalExpr sem.toSemantics (ctxScope ctx) [] item.expr

def rowCtxFromRow (name : String) (row : RowObject) : RowCtx :=
  rowCtx name (sem.columnsOf row) row

/-- A row of another view, as `execute_select_with_keys` takes it. -/
def selectViewRow (info : ViewQueryInfo X) (columns : List String) (row : ViewRow) :
    Except String (Option ViewRow) := do
  let ctx := viewRowCtx info.base.name columns row.values
  if ← matchesPredicate sem info.select.filter ctx then
    .ok (some ⟨row.pk, ← buildViewValues sem info.select.projection ctx⟩)
  else .ok none

/-- A row of the base table, as `execute_select_with_keys` takes it. -/
def selectTableRow (plan : RowPlan X ι) (schema : TableSchema) (entry : RowEntry) :
    Except String (Option ViewRow) := do
  if !rowVisibleAt none entry then .ok none
  else match ← plan.context sem.toSelectSemantics [] (schemaRowValue schema entry.row) with
    | none => .ok none
    | some ctx =>
      let pk ← extractPk schema entry.row
      .ok (some ⟨pk, ← plan.project sem.toSelectSemantics [] ctx⟩)

/-- `execute_select_with_keys` on the query of a view, which has no ORDER BY and no LIMIT. -/
def executeSelectWithKeys (query : Query X) (info : ViewQueryInfo X) :
    Except String (List ViewRow) := do
  if info.select.groupBy.isSome then .error "not_patchable"
  else match e.views info.base.key with
    | some view => do
      let rows ← view.rows.mapM (selectViewRow sem info view.columns)
      .ok rows.reduceOption
    | none => do
      let t ← e.engine.getTable info.base.key
      if t.schema.primaryKey.isEmpty then .error "not_patchable"
      else match ← sem.snapshotSelect info.base query with
        | some rows => .ok rows
        | none => do
          let q : SingleTable X := ⟨query, info.select, info.base, info.select.filter⟩
          let held := e.holding info.base.key
          let columns := (q.queryColumns sem.toSelectSemantics).getD
            (t.schema.columns.map (·.name))
          let plan := q.rowPlan sem.toSelectSemantics held [] t.schema columns
          let entries ← match q.indexRows sem.toSelectSemantics held [] with
            | some candidates => .ok (candidateRows t candidates)
            | none => t.data.scanRows
          let rows ← entries.mapM (selectTableRow sem plan t.schema)
          .ok rows.reduceOption

/-- `get_row_by_pk`, which finds live rows only. -/
def getRowByPk (key : TableKey) (pk : List Lit) : Except String RowObject := do
  let t ← e.engine.getTable key
  let entry ← match t.data.residency with
    | .resident => .ok ((t.data.pkIndex (sem.text pk)).bind fun i => t.data.rows[i]?)
    | .streaming _ => sem.segmentRow key (sem.text pk)
  match entry with
  | none => .error "not_found"
  | some entry => if entry.deleted then .error "not_found" else .ok entry.row

/-- The changes of the base table that a view has not seen. -/
def changesAfter (lastChangeSeq : ℕ) (base : BaseTableRef) : List ChangeEvent :=
  e.changes.filter fun ev => lastChangeSeq < ev.seq && ev.db == base.db && ev.table == base.table

def viewRefreshStats (lastChangeSeq : ℕ) (base : BaseTableRef) : ViewRefreshStats :=
  let changes := changesAfter e lastChangeSeq base
  ⟨changes.length, ((changes.filterMap (·.pk)).map sem.text).dedup.length⟩

def shouldRefreshViewFull (view : ViewState X) (info : ViewQueryInfo X)
    (stats : ViewRefreshStats) : Bool :=
  if stats.changeCount = 0 then false
  else if viewIsGrouped info then
    if view.rows.isEmpty then false
    else if view.sourceRows.entries.isEmpty then true
    else if view.stale && max view.rows.length 1 ≤ stats.touchedPks then true
    else view.rows.length + 1 < stats.touchedPks ||
      max (view.sourceRows.entries.length / 2) 1 < stats.changeCount
  else if view.stale && view.rows.length + 1 ≤ stats.touchedPks then true
  else view.rows.length + 1 < stats.changeCount

end Reading

section Rows
variable {X ι : Type} (sem : ViewSemantics X ι)

/-- A computation on a view, which may fail or panic half-way. -/
abbrev OnView (X : Type) := EStateM (Stop String) (ViewState X)

def fallible {α σ : Type} : Except String α → EStateM (Stop String) σ α
  | .ok a => pure a
  | .error e => throw (.err e)

def viewUpsertRow (pk values : List Lit) : OnView X Unit :=
  modify fun view =>
    match view.pkIndex (sem.text pk) with
    | some idx => { view with rows := view.rows.modify idx fun _ => ⟨pk, values⟩ }
    | none =>
      { view with
        rows := view.rows ++ [⟨pk, values⟩]
        pkIndex := Function.update view.pkIndex (sem.text pk) (some view.rows.length) }

/-- `swap_remove` panics where the index names no row. -/
def viewRemoveRow (pk : List Lit) : OnView X Unit := do
  let view ← get
  match view.pkIndex (sem.text pk) with
  | none => pure ()
  | some idx =>
    let pkIndex := Function.update view.pkIndex (sem.text pk) none
    match view.rows[idx]?, view.rows.getLast? with
    | some _, some last =>
      let rows := (view.rows.set idx last).dropLast
      set { view with
        rows := rows
        pkIndex := if idx < view.rows.length - 1 then
          Function.update pkIndex (sem.text last.pk) (some idx) else pkIndex }
    | _, _ => throw (.fault .outOfBounds)

def groupedViewKey (info : ViewQueryInfo X) (row : RowObject) : List Lit :=
  info.groupKeyColumns.map fun col => (row col).getD .null

/-- The groups by the texts of their keys, with what was put into each. -/
abbrev Groups := AList fun _ : String => List Lit × List ViewSourceRow

def groupSources (info : ViewQueryInfo X) (sources : List ViewSourceRow) : Groups :=
  sources.foldl (fun groups source =>
    let groupKey := groupedViewKey info source.row
    let (pk, members) := (groups.lookup (sem.text groupKey)).getD (groupKey, [])
    groups.insert (sem.text groupKey) (pk, members ++ [source])) ∅

def aggregateNumbers (column : String) (members : List ViewSourceRow) : List Float :=
  members.filterMap fun member => (member.row column).bind (litToF64 sem.fmt)

/-- The least value, or the greatest one; the first of equal ones. -/
def aggregateBest (take : Ordering) (column : String) (members : List ViewSourceRow) :
    Option Lit :=
  ((members.filterMap fun member => member.row column).filter fun value => !value.isNull).foldl
    (fun best value => match best with
      | none => some value
      | some current => if cmpLit sem.fmt value current = take then some value else some current)
    none

def computeGroupedViewAggregate (agg : ViewAggregateSpec) (members : List ViewSourceRow) :
    Except String Lit :=
  match agg.op, agg.column with
  | .count, some column =>
    .ok (.u64 (members.countP fun member => (member.row column).any fun value => !value.isNull))
  | .count, none => .ok (.u64 members.length)
  | .sum, some column =>
    match aggregateNumbers sem column members with
    | [] => .ok .null
    | values => .ok (.f64 (values.foldl (· + ·) 0))
  | .avg, some column =>
    match aggregateNumbers sem column members with
    | [] => .ok .null
    | values => .ok (.f64 (values.foldl (· + ·) 0 / .ofNat values.length))
  | .min, some column => .ok ((aggregateBest sem .lt column members).getD .null)
  | .max, some column => .ok ((aggregateBest sem .gt column members).getD .null)
  | .sum, none => .error "invalid_request: sum requires column"
  | .avg, none => .error "invalid_request: avg requires column"
  | _, none => .error "invalid_request: min/max requires column"

def buildGroupedViewValues (info : ViewQueryInfo X) (groupKey : List Lit)
    (members : List ViewSourceRow) : Except String (List Lit) :=
  info.projectionPlan.mapM fun spec =>
    match spec with
    | .groupKey column =>
      match info.groupKeyColumns.idxOf? column with
      | none => .error "invalid_request: missing group key column"
      | some idx => .ok (groupKey[idx]?.getD .null)
    | .aggregate agg => computeGroupedViewAggregate sem agg members

/-- The rows of the groups, by the texts of their keys, with their index. -/
def buildGroupedViewRows (info : ViewQueryInfo X) (sources : SourceRows) :
    Except String (List ViewRow × (String → Option ℕ)) := do
  let groups := (groupSources sem info (sources.entries.map (·.2))).entries.map (·.2)
  let grouped := groups.mergeSort fun a b => sem.text a.1 ≤ sem.text b.1
  let rows ← grouped.mapM fun group => do
    .ok (⟨group.1, ← buildGroupedViewValues sem info group.1 group.2⟩ : ViewRow)
  .ok (rows, fun key => rows.findIdx? fun row => sem.text row.pk = key)

end Rows

section Refresh
variable {X ι : Type} [DecidableEq ι] (sem : ViewSemantics X ι) (now : ℕ) (e : ViewEngine X)

def buildGroupedViewSourceRows (info : ViewQueryInfo X) : Except String SourceRows := do
  let t ← e.engine.getTable info.base.key
  t.data.rows.foldlM (fun sources entry => do
    if entry.deleted then .ok sources
    else if ← matchesPredicate sem info.select.filter
        (rowCtxFromRow sem info.base.name entry.row) then
      let pk ← extractPk t.schema entry.row
      .ok (sources.insert (sem.text pk) ⟨pk, entry.row⟩)
    else .ok sources) ∅

/-- What every refresh writes when it has come to its end. -/
def refreshed (mode : String) : OnView X ℕ := do
  modify fun view => { view with lastRefreshMs := now, stale := false, lastRefreshMode := mode }
  pure (← get).rows.length

def refreshGroupedViewFull (info : ViewQueryInfo X) : OnView X ℕ := do
  let sourceRows ← fallible (buildGroupedViewSourceRows sem e info)
  let (rows, pkIndex) ← fallible (buildGroupedViewRows sem info sourceRows)
  modify fun view =>
    { view with
      columns := projectionColumns sem info.select.projection
      pkColumns := info.groupKeyColumns
      rows, sourceRows, pkIndex
      lastChangeSeq := e.changeSeq }
  refreshed now "full"

def refreshViewFull : OnView X ℕ := do
  let query := (← get).query
  let info ← fallible (viewQueryInfo sem query)
  if viewIsGrouped info then refreshGroupedViewFull sem now e info
  else
    let rows ← fallible (executeSelectWithKeys sem e query info)
    modify fun view =>
      { view with
        columns := projectionColumns sem info.select.projection
        rows := rows
        sourceRows := ∅
        pkIndex := fun key =>
          (rows.zipIdx.reverse.find? fun row => sem.text row.1.pk = key).map (·.2)
        lastChangeSeq := e.changeSeq }
    refreshed now "full"

/-- The checks at the beginning of an incremental refresh. -/
def startIncremental (info : ViewQueryInfo X) : OnView X Unit := do
  if (← get).deps.length ≠ 1 then
    throw (.err "invalid_request: incremental refresh requires single-table views")
  let schema ← fallible (e.engine.getSchema info.base.key)
  if schema.primaryKey.isEmpty then
    throw (.err "invalid_request: base table has no primary key")
  modify fun view =>
    if view.columns.isEmpty then
      { view with columns := projectionColumns sem info.select.projection }
    else view

/-- The row of a change as it is now, with the context in which the view evaluates it. -/
def changedRow (info : ViewQueryInfo X) (pk : List Lit) : OnView X (Option RowObject) :=
  match getRowByPk sem e info.base.key pk with
  | .error _ => pure none
  | .ok row => do
    if ← fallible (matchesPredicate sem info.select.filter
        (rowCtxFromRow sem info.base.name row)) then pure (some row) else pure none

def changeSeen (change : ChangeEvent) : OnView X Unit :=
  modify fun view => { view with lastChangeSeq := max view.lastChangeSeq change.seq }

def applyChange (info : ViewQueryInfo X) (change : ChangeEvent) : OnView X Unit := do
  match change.pk with
  | none => throw (.err "invalid_request: change missing primary key")
  | some pk =>
    if change.op = "insert" ∨ change.op = "update" then
      match ← changedRow sem e info pk with
      | some row =>
        let values ← fallible (buildViewValues sem info.select.projection
          (rowCtxFromRow sem info.base.name row))
        viewUpsertRow sem pk values
      | none => viewRemoveRow sem pk
    else if change.op = "delete" then viewRemoveRow sem pk
    else throw (.err "invalid_request: unsupported change op")
    changeSeen change

/-- The groups that changes have touched, by the texts of their keys. -/
abbrev TouchedGroups := AList fun _ : String => List Lit

def applyGroupedChange (info : ViewQueryInfo X) (touched : TouchedGroups) (change : ChangeEvent) :
    OnView X TouchedGroups := do
  match change.pk with
  | none => throw (.err "invalid_request: change missing primary key")
  | some pk =>
    let mut touched := touched
    if let some old := (← get).sourceRows.lookup (sem.text pk) then
      modify fun view => { view with sourceRows := view.sourceRows.erase (sem.text pk) }
      let groupKey := groupedViewKey info old.row
      touched := touched.insert (sem.text groupKey) groupKey
    if change.op = "insert" ∨ change.op = "update" then
      if let some row ← changedRow sem e info pk then
        let groupKey := groupedViewKey info row
        touched := touched.insert (sem.text groupKey) groupKey
        modify fun view =>
          { view with sourceRows := view.sourceRows.insert (sem.text pk) ⟨pk, row⟩ }
    else if change.op ≠ "delete" then
      throw (.err "invalid_request: unsupported change op")
    changeSeen change
    pure touched

def refreshGroupedViewIncremental (info : ViewQueryInfo X) : OnView X ℕ := do
  startIncremental sem e info
  modify fun view =>
    if view.pkColumns.isEmpty then { view with pkColumns := info.groupKeyColumns } else view
  let view ← get
  if !view.rows.isEmpty && view.sourceRows.entries.isEmpty then
    throw (.err "invalid_request: grouped view refresh requires persisted source rows")
  let changes := changesAfter e view.lastChangeSeq info.base
  if changes.isEmpty then refreshed now "incremental"
  else
    let touched ← changes.foldlM (applyGroupedChange sem e info) ∅
    let groups := groupSources sem info ((← get).sourceRows.entries.map (·.2))
    for ⟨key, groupKey⟩ in touched.entries do
      match groups.lookup key with
      | some (_, members) =>
        let values ← fallible (buildGroupedViewValues sem info groupKey members)
        viewUpsertRow sem groupKey values
      | none => viewRemoveRow sem groupKey
    refreshed now "incremental"

def refreshViewIncremental : OnView X ℕ := do
  let info ← fallible (viewQueryInfo sem (← get).query)
  if viewIsGrouped info then refreshGroupedViewIncremental sem now e info
  else
    startIncremental sem e info
    let changes := changesAfter e (← get).lastChangeSeq info.base
    changes.forM (applyChange sem e info)
    refreshed now "incremental"

/-- The mode that was used, with the number of rows. An incremental refresh that fails in the mode
`auto` is followed by a full one. -/
def refreshIn (mode : String) : OnView X (ℕ × String) := do
  let view ← get
  let info ← fallible (viewQueryInfo sem view.query)
  let stats := viewRefreshStats sem e view.lastChangeSeq info.base
  if mode = "full" then pure (← refreshViewFull sem now e, mode)
  else if mode = "incremental" then pure (← refreshViewIncremental sem now e, mode)
  else if shouldRefreshViewFull view info stats then pure (← refreshViewFull sem now e, "full")
  else fun view =>
    match refreshViewIncremental sem now e view with
    | .ok rows view => .ok (rows, "incremental") view
    | .error (.fault fault) view => .error (.fault fault) view
    | .error (.err _) view => (do pure (← refreshViewFull sem now e, "full") : OnView X _) view

structure ViewRefreshResult where
  mode : String
  rows : ℕ
  lastChangeSeq : ℕ

def refreshModes : List String := ["auto", "full", "incremental"]

/-- The mode of a request, which may leave it out. -/
def requestedMode (mode : Option String) : String := toAsciiLowercase (mode.getD "auto")

def ViewEngine.putView (key : TableKey) (view : Option (ViewState X)) (e : ViewEngine X) :
    ViewEngine X :=
  { e with views := Function.update e.views key view }

/-- The view is out of the map while it is refreshed. An error of the refresh puts back the view
as it was; a mode that is refused does not. -/
def viewRefresh (key : TableKey) (mode : Option String) :
    EStateM (Stop String) (ViewEngine X) ViewRefreshResult := fun e =>
  match e.views key with
  | none => .error (.err "invalid_request: view not found") e
  | some originalView =>
    let removed := e.putView key none
    if requestedMode mode ∉ refreshModes then
      .error (.err "invalid_request: mode must be one of auto, full, incremental") removed
    else match refreshIn sem now removed (requestedMode mode) originalView with
      | .ok (rows, usedMode) view =>
        .ok ⟨usedMode, rows, view.lastChangeSeq⟩
          (removed.putView key (some { view with lastRefreshMode := usedMode }))
      | .error (.fault fault) _ => .error (.fault fault) removed
      | .error (.err err) _ => .error (.err err) (removed.putView key (some originalView))

end Refresh

section Atomicity
variable {X ι : Type} [DecidableEq ι] (sem : ViewSemantics X ι) (now : ℕ) {e e' : ViewEngine X}
variable {key : TableKey} {mode : Option String}

theorem putView_putView (e : ViewEngine X) (key : TableKey) (view view' : Option (ViewState X)) :
    (e.putView key view).putView key view' = e.putView key view' := by
  simp only [ViewEngine.putView, Function.update_idem]

theorem putView_self {view : ViewState X} (h : e.views key = some view) :
    e.putView key (some view) = e := by
  simp only [ViewEngine.putView, ← h, Function.update_eq_self]

theorem putView_none (e : ViewEngine X) (key : TableKey) :
    (e.putView key none).views key = none := by
  simp [ViewEngine.putView]

/-- A refused mode loses the view. -/
theorem viewRefresh_of_mode {view : ViewState X} (hview : e.views key = some view)
    (hmode : requestedMode mode ∉ refreshModes) :
    viewRefresh sem now key mode e =
      .error (.err "invalid_request: mode must be one of auto, full, incremental")
        (e.putView key none) := by
  rw [viewRefresh, hview]
  exact if_pos hmode

/-- An error of the refresh itself leaves the engine as it was. -/
theorem viewRefresh_error {err : String} {view : ViewState X} (hview : e.views key = some view)
    (hmode : requestedMode mode ∈ refreshModes)
    (h : viewRefresh sem now key mode e = .error (.err err) e') : e' = e := by
  rw [viewRefresh, hview] at h
  dsimp only at h
  rw [if_neg (not_not.mpr hmode)] at h
  split at h
  · cases h
  · cases h
  · cases h
    rw [putView_putView, putView_self hview]

theorem viewRefresh_absent {err : Stop String} (hview : e.views key = none)
    (h : viewRefresh sem now key mode e = .error err e') : e' = e := by
  rw [viewRefresh, hview] at h
  cases h
  rfl

theorem viewRefresh_atomic_iff (e : ViewEngine X) (key : TableKey) (mode : Option String) :
    (∀ err e', viewRefresh sem now key mode e = .error (.err err) e' → e'.views = e.views) ↔
      e.views key = none ∨ requestedMode mode ∈ refreshModes := by
  constructor
  · intro h
    rw [or_iff_not_imp_right]
    intro hmode
    cases hview : e.views key with
    | none => rfl
    | some view =>
      have hviews := congrFun (h _ _ (viewRefresh_of_mode sem now hview hmode)) key
      rw [putView_none, hview] at hviews
      cases hviews
  · intro hcase err e' h
    cases hview : e.views key with
    | none => rw [viewRefresh_absent sem now hview h]
    | some view =>
      have hmode := hcase.resolve_left (by rw [hview]; exact fun hnone => by cases hnone)
      rw [viewRefresh_error sem now hview hmode h]

end Atomicity

section Sample

def viewSemantics : ViewSemantics Empty Unit where
  toSelectSemantics := plainSemantics
  call := Empty.elim
  inferSelectName _ := "expr"
  columnsOf _ := []
  segmentRow _ _ := .ok none
  snapshotSelect _ _ := .ok none

def recentKey : TableKey := ⟨"shop", "recent"⟩

def recentView : ViewEngine Empty where
  engine := ordersEngine
  views key := if key = recentKey then some ⟨"shop", "recent", { body := selectN "orders" },
    ["n"], [], [], [⟨[.u64 1], [.u64 1]⟩], ∅, fun _ => none, 0, 0, false, "full"⟩ else none

/-- A refresh in the mode `fast` is an error, and the view is gone. -/
theorem view_lost_to_mode :
    ¬ ∀ err e', viewRefresh viewSemantics 0 recentKey (some "fast") recentView =
      .error (.err err) e' → e'.views = recentView.views := by
  intro h
  obtain ⟨view, hview⟩ : ∃ view, recentView.views recentKey = some view := ⟨_, rfl⟩
  have hmode : requestedMode (some "fast") ∉ refreshModes := by decide +kernel
  have hviews := congrFun (h _ _ (viewRefresh_of_mode viewSemantics 0 hview hmode)) recentKey
  rw [putView_none, hview] at hviews
  cases hviews

end Sample

end SkeinDB.Queries
