import SkeinDB.Queries.AsOf
import SkeinDB.Queries.Execute

/-!
# Queries as of a time

A query without a JOIN over tables in memory, with no candidates taken from an index, depends on
its tables by their definitions and their visible rows.
-/
namespace SkeinDB.Queries
open SkeinDB.Tables SkeinDB.Transition

section Schemas
variable {X ι : Type} {schema schema' : TableSchema} {flags : String → Bool}
  {aliases : List String} {ids : Interning ι} {args : List Lit}

theorem resolve_congr (h : schema'.columns = schema.columns) (e : Expr X) :
    resolveInternedColumnRef ⟨schema', flags, aliases, ids⟩ e =
      resolveInternedColumnRef ⟨schema, flags, aliases, ids⟩ e := by
  cases e <;> simp [resolveInternedColumnRef, canonicalSchemaColumnName, h]

theorem internedValueIds_congr (es : List (Expr X)) :
    internedValueIds ⟨schema', flags, aliases, ids⟩ args es =
      internedValueIds ⟨schema, flags, aliases, ids⟩ args es := by
  induction es with
  | nil => rfl
  | cons e es ih => rw [internedValueIds, internedValueIds, ih]

/-- What a predicate is compiled to depends on the columns of the schema only. -/
theorem compile_congr (h : schema'.columns = schema.columns) (e : Expr X) :
    compileInternedPredicateExpr ⟨schema', flags, aliases, ids⟩ args e =
      compileInternedPredicateExpr ⟨schema, flags, aliases, ids⟩ args e := by
  have hresolve : resolveInternedColumnRef (X := X) ⟨schema', flags, aliases, ids⟩ =
      resolveInternedColumnRef ⟨schema, flags, aliases, ids⟩ := funext (resolve_congr h)
  have hop : ∀ op (a b : Option (Expr X)) list inner items,
      compileOp ⟨schema', flags, aliases, ids⟩ args op a b list inner items =
        compileOp ⟨schema, flags, aliases, ids⟩ args op a b list inner items := by
    intro op a b list inner items
    have hids : internedValueIds (X := X) ⟨schema', flags, aliases, ids⟩ args =
        internedValueIds ⟨schema, flags, aliases, ids⟩ args := funext internedValueIds_congr
    have heq : compileEq (X := X) ⟨schema', flags, aliases, ids⟩ args =
        compileEq ⟨schema, flags, aliases, ids⟩ args := rfl
    unfold compileOp compileComparison compileIn
    rw [hresolve, hids, heq]
  induction e using Expr.induction with
  | hcol col table => rfl
  | hlit lit => rw [compileInternedPredicateExpr, compileInternedPredicateExpr]
  | hparam param => rw [compileInternedPredicateExpr, compileInternedPredicateExpr]
  | hother x => rfl
  | hop op a b vargs list lo hi iha ihb ihargs _ =>
    have hconnected : (connected a b vargs).map
        (compileInternedPredicateExpr ⟨schema', flags, aliases, ids⟩ args) =
        (connected a b vargs).map
          (compileInternedPredicateExpr ⟨schema, flags, aliases, ids⟩ args) := by
      refine List.map_congr_left fun x hx => ?_
      rcases mem_connected hx with hx | hx | ⟨xs, hxs, hx⟩
      · exact iha x hx
      · exact ihb x hx
      · exact ihargs xs hxs x hx
    have hinner : a.map (compileInternedPredicateExpr ⟨schema', flags, aliases, ids⟩ args) =
        a.map (compileInternedPredicateExpr ⟨schema, flags, aliases, ids⟩ args) := by
      rcases a with _ | a
      · rfl
      · exact congrArg some (iha a rfl)
    rw [compile_op, compile_op, hconnected, hinner]
    exact hop op a b list _ _

theorem schemaRowValue_congr (h : schema'.columns = schema.columns)
    (hdefaults : schema'.compatDefaults = schema.compatDefaults) (row : RowObject) :
    schemaRowValue schema' row = schemaRowValue schema row := by
  funext column
  rw [schemaRowValue, schemaRowValue, h, hdefaults]

end Schemas

/-- Two moments at which a name stands for one table in memory, with the same rows visible as of a
time. -/
structure SameAsOf (ts : ℕ) (h h' : Holding) : Prop where
  view : h.view = none
  view' : h'.view = none
  policy : h'.policy = h.policy
  flags : h'.flags = h.flags
  table : (∃ e, h.table = .error e ∧ h'.table = .error e) ∨
    ∃ t t', h.table = .ok t ∧ h'.table = .ok t' ∧ t.data.residency = .resident ∧
      SameDefinition t t' ∧ t'.data.rows.filter (rowVisibleAt (some ts)) =
        t.data.rows.filter (rowVisibleAt (some ts))

/-- The query over one table takes no candidates from an index. -/
def SingleTable.Scans {X ι : Type} [DecidableEq ι] (sem : SelectSemantics X ι) (h : Holding)
    (args : List Lit) (q : SingleTable X) : Prop :=
  q.indexRows sem h args = none ∧ ∀ t, h.table = .ok t → q.vectorRows sem args t = none

section Single
variable {X ι : Type} [DecidableEq ι] {sem : SelectSemantics X ι} {h h' : Holding}
  {args : List Lit} {ts : ℕ} {q : SingleTable X} {t t' : Table}

theorem scanRows_resident (hres : t.data.residency = .resident) :
    t.data.scanRows = .ok t.data.rows := by
  rw [TableData.scanRows, hres]

omit [DecidableEq ι] in
theorem rowPlan_congr (hflags : h'.flags = h.flags) (hsame : SameDefinition t t')
    (columns : List String) :
    q.rowPlan sem h' args t'.schema columns = q.rowPlan sem h args t.schema columns := by
  have hplan : q.compilePlan sem h' args t'.schema = q.compilePlan sem h args t.schema := by
    unfold SingleTable.compilePlan
    rw [hflags]
    rcases h.flags with _ | flags
    · rfl
    rcases q.predicate with _ | pred
    · rfl
    exact compile_congr hsame.columns pred
  rw [SingleTable.rowPlan, SingleTable.rowPlan, hplan]

theorem baseTableRows_asOf (hflags : h'.flags = h.flags) (hres : t.data.residency = .resident)
    (hsame : SameDefinition t t')
    (hvisible : t'.data.rows.filter (rowVisibleAt (some ts)) =
      t.data.rows.filter (rowVisibleAt (some ts)))
    (hscans : q.indexRows sem h args = none ∧ q.vectorRows sem args t = none)
    (hscans' : q.indexRows sem h' args = none ∧ q.vectorRows sem args t' = none) :
    q.baseTableRows sem h' args (some ts) t' = q.baseTableRows sem h args (some ts) t := by
  have hres' := hsame.residency.trans hres
  have hresident : t'.data.isResident = t.data.isResident := by
    rw [TableData.isResident, TableData.isResident, hsame.residency]
  have hvalue := schemaRowValue_congr hsame.columns hsame.defaults
  have hbatch : ∀ columns row, batchValues t'.schema columns row = batchValues t.schema columns row := by
    intro columns row
    funext column
    simp only [batchValues, hvalue]
  unfold SingleTable.baseTableRows
  dsimp only
  rw [hscans.1, hscans.2, hscans'.1, hscans'.2, scanRows_resident hres, scanRows_resident hres',
    hresident, hsame.columns, rowPlan_congr hflags hsame]
  have hvalues : SingleTable.visibleValues (some ts) t' t'.data.rows =
      SingleTable.visibleValues (some ts) t t.data.rows := by
    rw [SingleTable.visibleValues, SingleTable.visibleValues, hvisible]
    exact List.map_congr_left fun entry _ => hvalue entry.row
  simp only [hvisible, hbatch]
  rcases q.distinct with _ | _
  all_goals
    change (if _ then _ else RowPlan.rows sem args _ (SingleTable.visibleValues _ t' _)) = _
    rw [hvalues]
    rfl

theorem tryBaseTable_asOf (hsame : SameAsOf ts h h') (hscans : q.Scans sem h args)
    (hscans' : q.Scans sem h' args) {reads reads' : List Read} :
    SameRun (fun _ _ => True) Eq (q.tryBaseTable sem h args (some ts) reads)
      (q.tryBaseTable sem h' args (some ts) reads') := by
  unfold SingleTable.tryBaseTable
  rw [hsame.view, hsame.view', hsame.policy]
  split
  · exact .ok rfl trivial
  · rcases hsame.table with ⟨e, ht, ht'⟩ | ⟨t, t', ht, ht', hres, hdef, hvisible⟩
    · rw [ht, ht']
      exact .error trivial
    · rw [ht, ht']
      have hrows := baseTableRows_asOf hsame.flags hres hdef hvisible ⟨hscans.1, hscans.2 t ht⟩
        ⟨hscans'.1, hscans'.2 t' ht'⟩
      rw [bind_of_ok (m := answered _) rfl, bind_of_ok (m := answered _) rfl,
        bind_of_ok (m := note _) rfl, bind_of_ok (m := note _) rfl, hrows]
      rcases q.baseTableRows sem h args (some ts) t with e | rows
      · exact .error trivial
      · exact .ok rfl trivial

theorem trySnapshot_asOf (q : SingleTable X) (h : Holding) (reads : List Read) :
    q.trySnapshot sem h args (some ts) reads = .ok none reads := by
  unfold SingleTable.trySnapshot
  simp
  rfl

end Single

section From
variable {X ι : Type} {sem : SelectSemantics X ι} {held held' : TableKey → Holding}
  {args : List Lit} {ts : ℕ}

/-- The reference is no join. -/
def TableRef.Plain : TableRef X → Prop
  | .join _ _ _ _ => False
  | _ => True

/-- The tables of a reference are as they were. -/
def TableRef.Alike (R : Holding → Holding → Prop) (held held' : TableKey → Holding) :
    TableRef X → Prop
  | .base table => R (held table.key) (held' table.key)
  | _ => True

theorem scanTable_asOf {base : BaseTableRef} (hsame : SameAsOf ts (held base.key) (held' base.key))
    {reads reads' : List Read} :
    SameRun (fun _ _ => True) Eq (scanTable sem held base (some ts) reads)
      (scanTable sem held' base (some ts) reads') := by
  unfold scanTable
  rw [hsame.view, hsame.view', hsame.policy]
  dsimp only
  rcases hsame.table with ⟨e, ht, ht'⟩ | ⟨t, t', ht, ht', hres, hdef, hvisible⟩
  · rw [ht, ht']
    exact .error trivial
  · have hres' := hdef.residency.trans hres
    have hrows : ((t'.data.rows.filter (rowVisibleAt (some ts))).map fun entry =>
        rowCtx base.name (t'.schema.columns.map (·.name)) (schemaRowValue t'.schema entry.row)) =
        (t.data.rows.filter (rowVisibleAt (some ts))).map fun entry =>
          rowCtx base.name (t.schema.columns.map (·.name)) (schemaRowValue t.schema entry.row) := by
      rw [hvisible, hdef.columns]
      refine List.map_congr_left fun entry _ => ?_
      rw [schemaRowValue_congr hdef.columns hdef.defaults]
    rw [ht, ht', bind_of_ok (m := answered _) rfl, bind_of_ok (m := answered _) rfl,
      bind_of_ok (m := note _) rfl, bind_of_ok (m := note _) rfl, scanRows_resident hres,
      scanRows_resident hres', bind_of_ok (m := answered _) rfl, bind_of_ok (m := answered _) rfl,
      hrows]
    exact .ok rfl trivial

theorem evalFrom_asOf {ref : TableRef X} (hplain : ref.Plain)
    (hsame : ref.Alike (SameAsOf ts) held held') {reads reads' : List Read} :
    SameRun (fun _ _ => True) Eq (evalFrom sem held args (some ts) ref reads)
      (evalFrom sem held' args (some ts) ref reads') := by
  cases ref with
  | base base =>
    rw [evalFrom, evalFrom]
    exact scanTable_asOf hsame
  | join _ _ _ _ => exact hplain.elim
  | subquery _ _ =>
    rw [evalFrom, evalFrom]
    exact .error trivial

theorem evalProduct_asOf (refs : List (TableRef X)) (hplain : ∀ ref ∈ refs, ref.Plain)
    (hsame : ∀ ref ∈ refs, ref.Alike (SameAsOf ts) held held') (ctxs : List RowCtx)
    {reads reads' : List Read} :
    SameRun (fun _ _ => True) Eq (evalProduct sem held args (some ts) ctxs refs reads)
      (evalProduct sem held' args (some ts) ctxs refs reads') := by
  induction refs generalizing ctxs reads reads' with
  | nil => exact .ok rfl trivial
  | cons ref refs ih =>
    rw [evalProduct, evalProduct]
    refine (evalFrom_asOf (hplain ref List.mem_cons_self) (hsame ref List.mem_cons_self)).bind
      fun rows rows' reads reads' hrows _ => ?_
    subst hrows
    exact ih (fun ref href => hplain ref (List.mem_cons_of_mem _ href))
      (fun ref href => hsame ref (List.mem_cons_of_mem _ href)) _

end From

section Execute
variable {X ι : Type} [DecidableEq ι] {sem : SelectSemantics X ι} {held held' : TableKey → Holding}
  {args : List Lit} {ts : ℕ} {query : Query X}

def Query.refs (query : Query X) : List (TableRef X) :=
  match query.body with
  | .select select => select.tables.getD []
  | .setop _ _ _ _ => []

/-- The query as one over a single table, where it is one, takes no candidates from an index. -/
def Query.Scans (sem : SelectSemantics X ι) (held : TableKey → Holding) (args : List Lit)
    (query : Query X) : Prop :=
  ∀ select predicate, query.body = .select select →
    selectEffectivePredicate sem.otherHaving select = .ok predicate →
      ∀ q ∈ singleTable query select predicate (select.tables.getD []),
        q.Scans sem (held q.base.key) args

theorem singleTable_mem {select : SelectBody X} {predicate : Option (Expr X)}
    {refs : List (TableRef X)} {q : SingleTable X}
    (h : singleTable query select predicate refs = some q) : .base q.base ∈ refs := by
  unfold singleTable at h
  split at h
  · cases h
    exact List.mem_singleton_self _
  · cases h

theorem trySingleTable_asOf {q : Option (SingleTable X)}
    (hsame : ∀ one ∈ q, SameAsOf ts (held one.base.key) (held' one.base.key))
    (hscans : ∀ one ∈ q, one.Scans sem (held one.base.key) args)
    (hscans' : ∀ one ∈ q, one.Scans sem (held' one.base.key) args) {reads reads' : List Read} :
    SameRun (fun _ _ => True) Eq (trySingleTable sem held args (some ts) q reads)
      (trySingleTable sem held' args (some ts) q reads') := by
  rcases q with _ | q
  · exact .ok rfl trivial
  · unfold trySingleTable
    dsimp only
    rw [bind_of_ok (trySnapshot_asOf q _ _), bind_of_ok (trySnapshot_asOf q _ _)]
    exact tryBaseTable_asOf (hsame q rfl) (hscans q rfl) (hscans' q rfl)

theorem evalFirst_asOf {q : Option (SingleTable X)} {first : TableRef X} (hplain : first.Plain)
    (hsame : first.Alike (SameAsOf ts) held held')
    (hscans : ∀ one ∈ q, one.Scans sem (held one.base.key) args)
    (hscans' : ∀ one ∈ q, one.Scans sem (held' one.base.key) args) {reads reads' : List Read} :
    SameRun (fun _ _ => True) Eq (evalFirst sem held args (some ts) q first reads)
      (evalFirst sem held' args (some ts) q first reads') := by
  unfold evalFirst
  rcases q with _ | q
  · exact evalFrom_asOf hplain hsame
  · dsimp only
    rw [(hscans q rfl).1, (hscans' q rfl).1]
    exact evalFrom_asOf hplain hsame

/-- The answer as of a time is that of the other moment. -/
theorem executeSelect_asOf (hplain : ∀ ref ∈ query.refs, ref.Plain)
    (hsame : ∀ ref ∈ query.refs, ref.Alike (SameAsOf ts) held held')
    (hscans : query.Scans sem held args) (hscans' : query.Scans sem held' args)
    {reads reads' : List Read} :
    SameRun (fun _ _ => True) Eq (executeSelect sem held args (some ts) query reads)
      (executeSelect sem held' args (some ts) query reads') := by
  unfold executeSelect
  rcases hbody : query.body with select | ⟨kind, all, left, right⟩
  · rw [Query.refs, hbody] at hplain hsame
    dsimp only at hplain hsame ⊢
    rcases hpredicate : selectEffectivePredicate sem.otherHaving select with e | predicate
    · exact .error trivial
    · rw [bind_of_ok (m := answered _) rfl, bind_of_ok (m := answered _) rfl]
      have hscans := hscans select predicate hbody hpredicate
      have hscans' := hscans' select predicate hbody hpredicate
      rcases htables : select.tables.getD [] with _ | ⟨first, rest⟩ <;>
        rw [htables] at hplain hsame hscans hscans'
      · exact .error trivial
      · unfold evalSelect
        dsimp only
        refine (trySingleTable_asOf (fun q hq => hsame _ (singleTable_mem hq)) hscans hscans').bind
          fun rows rows' reads reads' hrows _ => ?_
        subst hrows
        rcases rows with _ | rows
        · refine (evalFirst_asOf (hplain _ List.mem_cons_self) (hsame _ List.mem_cons_self) hscans
            hscans').bind fun ctxs ctxs' reads reads' hctxs _ => ?_
          subst hctxs
          refine (evalProduct_asOf rest (fun ref href => hplain ref (List.mem_cons_of_mem _ href))
            (fun ref href => hsame ref (List.mem_cons_of_mem _ href)) ctxs).bind
              fun ctxs ctxs' reads reads' hctxs _ => ?_
          subst hctxs
          rcases productRows sem args query select predicate ctxs with e | rows
          · exact .error trivial
          · exact .ok rfl trivial
        · exact .ok rfl trivial
  · exact .error trivial

end Execute

end SkeinDB.Queries
