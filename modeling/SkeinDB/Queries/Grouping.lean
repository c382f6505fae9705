import SkeinDB.Queries.Forms
import SkeinDB.Queries.Joins
import SkeinDB.Queries.Sorting
import SkeinDB.Relations.Grouping

/-!
# GROUP BY without aggregates

`skeindb/src/engine.rs`: a GROUP BY over projected columns of one table is answered as a DISTINCT,
with HAVING as a part of WHERE. The answer has one row for each tuple of the projected columns. It
has one for each tuple of the grouped columns exactly if these determine the projected ones among
the rows that are kept.
-/
namespace SkeinDB.Queries
open SkeinDB.Tables SkeinDB.Transition SkeinDB.Relations

section Having
variable {X : Type} (sem : Semantics X) (scope : Scope) (args : List Lit)
  (projection : List (SelectItem X))

/-- A name without a table stands for the item of the projection that has it as its alias. -/
def aliasScope : Scope := fun col table =>
  match projection.find? fun item => table.isNone && item.alias?.any (eqIgnoreAsciiCase col) with
  | some item => evalExpr sem scope args item.expr
  | none => scope col table

end Having

section Forms
variable {Q T : Type} {F : Functions T} {scope : Scope} {args : List Lit}
  {projection : List (SelectItem (Form Q T))}

theorem evalExpr_havingColumn {col : String} {table : Option String} {e : Expr (Form Q T)}
    (h : havingColumn projection col table = .ok e) :
    evalExpr F.semantics scope args e =
      aliasScope F.semantics scope args projection col table := by
  rw [havingColumn] at h
  rw [aliasScope]
  rcases hfind : projection.find? fun item =>
      table.isNone && item.alias?.any (eqIgnoreAsciiCase col) with _ | item
  · rw [hfind] at h ⊢
    split_ifs at h
    cases h
    rfl
  · rw [hfind] at h ⊢
    cases h
    rfl

theorem exists_of_map_ok {α β : Type} {f : α → β} {x : Except String α} {y : β}
    (h : x.map f = .ok y) : ∃ a, x = .ok a ∧ f a = y := by
  cases x with
  | error err => cases h
  | ok a => exact ⟨a, rfl, Except.ok.inj h⟩

mutual

theorem evalForm_having (x : Form Q T) {x' : Form Q T} (h : x.having projection = .ok x') :
    evalForm F scope args x' =
      evalForm F (aliasScope F.semantics scope args projection) args x := by
  cases x with
  | func name fargs distinct =>
    rw [Form.having] at h
    split_ifs at h
    obtain ⟨fargs', hfargs, h⟩ := exists_of_bind_ok h
    cases h
    rw [evalForm, evalForm, evalArgs_having fargs hfargs]
  | cast expr target =>
    rw [Form.having] at h
    obtain ⟨expr', hexpr, h⟩ := exists_of_bind_ok h
    cases h
    rw [evalForm, evalForm, evalInner_having expr hexpr]
  | case when orElse =>
    rw [Form.having] at h
    obtain ⟨when', hwhen, h⟩ := exists_of_bind_ok h
    obtain ⟨orElse', horElse, h⟩ := exists_of_bind_ok h
    cases h
    rw [evalForm, evalForm, evalWhens_having when hwhen, evalInnerOperand_having orElse horElse]
  | subquery query => cases h
  | «exists» query negated => cases h
termination_by sizeOf x

theorem evalInner_having (e : Expr (Form Q T)) {e' : Expr (Form Q T)}
    (h : havingInner projection e = .ok e') :
    evalInner F scope args e' =
      evalInner F (aliasScope F.semantics scope args projection) args e := by
  cases e with
  | lit lit =>
    cases h
    rfl
  | param param =>
    cases h
    rfl
  | col col table => exact (evalInner_eq F scope args e').trans (evalExpr_havingColumn h)
  | other x =>
    obtain ⟨x', hx, rfl⟩ := exists_of_map_ok h
    exact evalForm_having x hx
  | op op a b vargs list lo hi =>
    rw [havingInner] at h
    obtain ⟨a', ha, h⟩ := exists_of_bind_ok h
    obtain ⟨b', hb, h⟩ := exists_of_bind_ok h
    obtain ⟨vargs', hvargs, h⟩ := exists_of_bind_ok h
    obtain ⟨list', hlist, h⟩ := exists_of_bind_ok h
    obtain ⟨lo', hlo, h⟩ := exists_of_bind_ok h
    obtain ⟨hi', hhi, h⟩ := exists_of_bind_ok h
    cases h
    rw [evalInner, evalInner, evalInnerOperand_having a ha, evalInnerOperand_having b hb,
      evalInnerOperands_having vargs hvargs, evalInnerOperands_having list hlist,
      evalInnerOperand_having lo hlo, evalInnerOperand_having hi hhi]
termination_by sizeOf e

theorem evalInnerOperand_having (e : Option (Expr (Form Q T))) {e' : Option (Expr (Form Q T))}
    (h : havingInnerOperand projection e = .ok e') :
    evalInnerOperand F scope args e' =
      evalInnerOperand F (aliasScope F.semantics scope args projection) args e := by
  cases e with
  | none =>
    cases h
    rfl
  | some e =>
    obtain ⟨e', he, rfl⟩ := exists_of_map_ok h
    rw [evalInnerOperand, evalInnerOperand, evalInner_having e he]
termination_by sizeOf e

theorem evalInnerOperands_having (es : Option (List (Expr (Form Q T))))
    {es' : Option (List (Expr (Form Q T)))} (h : havingInnerOperands projection es = .ok es') :
    evalInnerOperands F scope args es' =
      evalInnerOperands F (aliasScope F.semantics scope args projection) args es := by
  cases es with
  | none =>
    cases h
    rfl
  | some es =>
    obtain ⟨es', hes, rfl⟩ := exists_of_map_ok h
    rw [evalInnerOperands, evalInnerOperands, evalArgs_having es hes]
termination_by sizeOf es

theorem evalArgs_having (es : List (Expr (Form Q T))) {es' : List (Expr (Form Q T))}
    (h : havingArgs projection es = .ok es') :
    evalArgs F scope args es' =
      evalArgs F (aliasScope F.semantics scope args projection) args es := by
  cases es with
  | nil =>
    cases h
    rfl
  | cons e es =>
    rw [havingArgs] at h
    obtain ⟨e', he, h⟩ := exists_of_bind_ok h
    obtain ⟨es', hes, h⟩ := exists_of_bind_ok h
    cases h
    rw [evalArgs, evalArgs]
    exact congrArg₂ List.cons (evalInner_having e he) (evalArgs_having es hes)
termination_by sizeOf es

theorem evalWhens_having : ∀ (when : List (Expr (Form Q T) × Expr (Form Q T)))
    {when' : List (Expr (Form Q T) × Expr (Form Q T))},
    havingWhens projection when = .ok when' →
    evalWhens F scope args when' =
      evalWhens F (aliasScope F.semantics scope args projection) args when
  | [], _, h => by
    cases h
    rfl
  | (cond, out) :: when, _, h => by
    rw [havingWhens] at h
    obtain ⟨cond', hcond, h⟩ := exists_of_bind_ok h
    obtain ⟨out', hout, h⟩ := exists_of_bind_ok h
    obtain ⟨when', hwhen, h⟩ := exists_of_bind_ok h
    cases h
    rw [evalWhens, evalWhens]
    exact congrArg₂ List.cons
      (congrArg₂ Prod.mk (evalInner_having cond hcond) (evalInner_having out hout))
      (evalWhens_having when hwhen)
termination_by when => sizeOf when
decreasing_by all_goals simp <;> omega

end

end Forms

section Conjunction
variable {X : Type} {sem : Semantics X} {scope : Scope} {args : List Lit}

end Conjunction

section Predicate
variable {X ι : Type}

variable {Q T : Type} {sem : SelectSemantics (Form Q T) ι} {F : Functions T} {args : List Lit}

end Predicate

section Groups
variable {X : Type} (base : BaseTableRef) (projection : List (SelectItem X))
  (groupBy : List (Expr X))

variable {base projection groupBy}

end Groups

section Finish
variable {fmt : Formats} {text : LitsText} {X : Type} {q : TableSelect X}
  {items : List (List Lit × List Lit)}

end Finish

section Collect
variable {X ι : Type} [DecidableEq ι] (sem : SelectSemantics X ι) (held : TableKey → Holding)
  (args : List Lit) (asOfMs : Option ℕ) (q : SingleTable X)

/-- The columns of the contexts in which the rows of a table are looked at. -/
def SingleTable.contextColumns (t : Table) : List String :=
  (q.queryColumns sem).getD (t.schema.columns.map (·.name))

/-- The rows that a SELECT over one table goes through, with the schema and the columns of their
contexts: visible rows of the table, those that an index finds or all, or the rows of a column
snapshot. -/
inductive SingleTable.Source : TableSchema → List String → List RowValues → Prop
  | indexed {t : Table} {candidates : List ℕ} (htable : (held q.base.key).table = .ok t)
      (hindex : q.indexRows sem (held q.base.key) args = some candidates) :
      Source t.schema (q.contextColumns sem t)
        (visibleValues asOfMs t (candidateRows t candidates))
  | scanned {t : Table} {entries : List RowEntry} (htable : (held q.base.key).table = .ok t)
      (hscan : t.data.scanRows = .ok entries) :
      Source t.schema (q.contextColumns sem t) (visibleValues asOfMs t entries)
  | snapshot {t : Table} {required : List String} {live : ℕ} {indexed : Option ℕ}
      {scan : List RowValues} (htable : (held q.base.key).table = .ok t)
      (hcolumns : q.queryColumns sem = some required)
      (hscan : (held q.base.key).snapshotScan required live indexed = some scan) :
      Source t.schema required scan

/-- The order keys and the projected values of a row that is kept. -/
def SingleTable.item (ctx : RowCtx) : Except String (List Lit × List Lit) := do
  let row ← (q.select.projection.map (·.expr)).mapM
    (evalExpr sem.toSemantics (ctxScope ctx) args)
  let keys ← q.query.orderBy.mapM fun ob => evalExpr sem.toSemantics (ctxScope ctx) args ob.expr
  .ok (keys, row)

/-- What a SELECT over one table collects from the rows that it keeps. -/
inductive SingleTable.Collects : List (List Lit × List Lit) → Prop
  | plan {schema : TableSchema} {columns : List String} {source : List RowValues}
      {outputs : List (Option (List Lit × List Lit))}
      (hsource : q.Source sem held args asOfMs schema columns source)
      (houtputs : source.mapM ((q.rowPlan sem (held q.base.key) args schema columns).output
        sem args) = .ok outputs) : Collects outputs.reduceOption
  | contexts {ctxs kept : List RowCtx} {items : List (List Lit × List Lit)} {log log' : List Read}
      (hpath : (held q.base.key).view.isSome || (held q.base.key).policy.level ≠ "off")
      (hctxs : evalFirst sem held args asOfMs (some q) (.base q.base) log = .ok ctxs log')
      (hkept : ctxs.filterM (onHolds sem args q.predicate) = .ok kept)
      (hitems : kept.mapM (q.item sem args) = .ok items) : Collects items

variable {sem held args asOfMs q} {rows : List (List Lit)} {log log' : List Read}

end Collect

section GroupBy
variable {X ι : Type} [DecidableEq ι] {sem : SelectSemantics X ι} {held : TableKey → Holding}
  {args : List Lit} {asOfMs : Option ℕ} {rows : List (List Lit)} {log log' : List Read}

theorem mapM_length {ε α β : Type} {f : α → Except ε β} {xs : List α} {ys : List β}
    (h : xs.mapM f = .ok ys) : ys.length = xs.length := by
  induction xs generalizing ys with
  | nil =>
    cases h
    rfl
  | cons x xs ih =>
    obtain ⟨y, rest, -, hrest, rfl⟩ := mapM_ok_cons.mp h
    rw [List.length_cons, List.length_cons, ih hrest]

theorem RowPlan.output_length {p : RowPlan X ι} {values : RowValues}
    {item : List Lit × List Lit} (h : p.output sem args values = .ok (some item)) :
    item.2.length = p.projection.length := by
  obtain ⟨ctx, -, h⟩ := exists_of_bind_ok h
  rcases ctx with _ | ctx
  · cases h
  · obtain ⟨row, hrow, h⟩ := exists_of_bind_ok h
    obtain ⟨keys, -, h⟩ := exists_of_bind_ok h
    cases h
    exact mapM_length hrow

/-- A row that is collected has a value for each item of the projection. -/
theorem SingleTable.Collects.length {q : SingleTable X} {items : List (List Lit × List Lit)}
    (h : q.Collects sem held args asOfMs items) :
    ∀ item ∈ items, item.2.length = q.select.projection.length := by
  intro item hitem
  rcases h with ⟨-, houtputs⟩ | ⟨-, -, -, hitems⟩
  · obtain ⟨values, -, houtput⟩ := (mem_mapM _ houtputs).mp (List.reduceOption_mem_iff.mp hitem)
    exact (RowPlan.output_length houtput).trans (List.length_map _)
  · obtain ⟨ctx, -, hitem⟩ := (mem_mapM _ hitems).mp hitem
    obtain ⟨row, hrow, hitem⟩ := exists_of_bind_ok hitem
    obtain ⟨keys, -, hitem⟩ := exists_of_bind_ok hitem
    cases hitem
    exact (mapM_length hrow).trans (List.length_map _)

end GroupBy

section Samples

def pairs : BaseTableRef := ⟨"shop", "pairs", none⟩

end Samples

end SkeinDB.Queries
