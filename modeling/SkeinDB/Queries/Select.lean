import Mathlib.Data.List.AList
import SkeinDB.Queries.Expr

/-!
# SELECT over the rows of one table

`skeindb/src/engine.rs`: the rows of a table that are visible at a time become contexts, in which a
column that a row lacks has its default. The predicate, the projection and the order keys are
evaluated row by row; then the rows are sorted, deduplicated and cut.
-/
namespace SkeinDB.Queries
open SkeinDB.Tables

structure BaseTableRef where
  db : String
  table : String
  alias? : Option String := none

def BaseTableRef.name (base : BaseTableRef) : String := base.alias?.getD base.table

/-- Values under keys of the form `alias.column`. -/
abbrev RowCtx := AList fun _ : String => Lit

def endsWith (text suffix : String) : Bool := suffix.toList.isSuffixOf text.toList

def ctxScope (ctx : RowCtx) : Scope
  | col, some table =>
    match ctx.lookup (table ++ "." ++ col) with
    | none => .error ("unknown column " ++ table ++ "." ++ col)
    | some v => .ok v
  | col, none =>
    match ctx.entries.filter fun entry => endsWith entry.1 ("." ++ col) with
    | [] => .error ("unknown column " ++ col)
    | [entry] => .ok entry.2
    | _ => .error ("ambiguous column " ++ col)

def schemaRowValue (schema : TableSchema) (row : RowObject) (column : String) : Option Lit :=
  (schema.columns.find? fun candidate => eqIgnoreAsciiCase candidate.name column).map
    fun schemaColumn => ((row schemaColumn.name).or (schema.compatDefaults schemaColumn.name)).getD
      .null

def tableRowCtxFromRowColumns (name : String) (schema : TableSchema) (row : RowObject)
    (columns : List String) : RowCtx :=
  columns.foldl (fun ctx column =>
    match schemaRowValue schema row column with
    | none => ctx
    | some value => ctx.insert (name ++ "." ++ column) value) ∅

def rowVisibleAt (asOfMs : Option ℕ) (entry : RowEntry) : Bool :=
  match asOfMs with
  | none => !entry.deleted
  | some ts =>
    if entry.commitTsMs = 0 then !entry.deleted
    else if entry.deleted then ts < entry.commitTsMs
    else entry.commitTsMs ≤ ts

inductive OrderDir
  | asc
  | desc
  deriving DecidableEq

structure OrderBy (X : Type) where
  expr : Expr X
  dir : Option OrderDir := none

structure LimitClause where
  limit : Option ℕ := none
  offset : Option ℕ := none

/-- What a SELECT over one table evaluates. `columns` are those of the contexts of its rows. -/
structure TableSelect (X : Type) where
  base : BaseTableRef
  columns : List String
  projection : List (Expr X)
  predicate : Option (Expr X) := none
  orderBy : List (OrderBy X) := []
  distinct : Bool := false
  limit : Option LimitClause := none

section Rows
variable (fmt : Formats) (text : LitsText)

def compareOrder {X : Type} : List (OrderBy X) → List Lit → List Lit → Ordering
  | [], _, _ => .eq
  | ob :: order, a, b =>
    let ord := cmpLit fmt (a.headD .null) (b.headD .null)
    let ord := if ob.dir.getD .asc = .asc then ord else ord.swap
    if ord ≠ .eq then ord else compareOrder order a.tail b.tail

/-- The first row of each text. -/
def dedupRows (seen : List String) : List (List Lit) → List (List Lit)
  | [] => []
  | row :: rows =>
    if text row ∈ seen then dedupRows seen rows else row :: dedupRows (text row :: seen) rows

def dedupSelectRows (rows : List (List Lit)) : List (List Lit) := dedupRows text [] rows

/-- The rows of the window. A window whose end overflows makes the source panic; `windowRows` has
the panic, and where there is none these rows. -/
def limitRows {α : Type} (limit : Option LimitClause) (rows : List α) : List α :=
  match limit with
  | none => rows
  | some clause =>
    let off := clause.offset.getD 0
    let lim := clause.limit.getD rows.length
    let stop := min ((off + lim) % 2 ^ 64) rows.length
    if rows.length ≤ off then [] else (rows.take stop).drop off

/-- The rows that were collected with their order keys, in the order and number asked for. -/
def finishRows {X : Type} (q : TableSelect X) (items : List (List Lit × List Lit)) :
    List (List Lit) :=
  let sorted := if q.orderBy.isEmpty then items
    else items.mergeSort fun a b => compareOrder fmt q.orderBy a.1 b.1 != .gt
  let rows := sorted.map (·.2)
  limitRows q.limit (if q.distinct then dedupSelectRows text rows else rows)

variable {text}

theorem mem_of_mem_dedupRows {row : List Lit} (rows : List (List Lit)) {seen : List String}
    (h : row ∈ dedupRows text seen rows) : row ∈ rows ∧ text row ∉ seen := by
  induction rows generalizing seen with
  | nil => exact absurd h List.not_mem_nil
  | cons first rows ih =>
    rw [dedupRows] at h
    split at h
    · exact ⟨List.mem_cons_of_mem _ (ih h).1, (ih h).2⟩
    · rename_i hseen
      rcases List.mem_cons.mp h with rfl | h
      · exact ⟨List.mem_cons_self, hseen⟩
      · exact ⟨List.mem_cons_of_mem _ (ih h).1,
          fun hmem => (ih h).2 (List.mem_cons_of_mem _ hmem)⟩

theorem exists_mem_dedupRows {row : List Lit} (rows : List (List Lit)) {seen : List String}
    (hrow : row ∈ rows) (hseen : text row ∉ seen) :
    ∃ kept ∈ dedupRows text seen rows, text kept = text row := by
  induction rows generalizing seen with
  | nil => exact absurd hrow List.not_mem_nil
  | cons first rows ih =>
    rw [dedupRows]
    split
    · rename_i hfirst
      rcases List.mem_cons.mp hrow with rfl | hrow
      · exact absurd hfirst hseen
      · exact ih hrow hseen
    · by_cases hsame : text first = text row
      · exact ⟨first, List.mem_cons_self, hsame⟩
      · rcases List.mem_cons.mp hrow with rfl | hrow
        · exact absurd rfl hsame
        · have hnot : text row ∉ text first :: seen := by
            rw [List.mem_cons, not_or]
            exact ⟨Ne.symm hsame, hseen⟩
          obtain ⟨kept, hkept, htext⟩ := ih hrow hnot
          exact ⟨kept, List.mem_cons_of_mem _ hkept, htext⟩

theorem nodup_dedupRows (rows : List (List Lit)) (seen : List String) :
    (dedupRows text seen rows).Nodup := by
  induction rows generalizing seen with
  | nil => exact List.nodup_nil
  | cons first rows ih =>
    rw [dedupRows]
    split
    · exact ih seen
    · exact List.nodup_cons.mpr
        ⟨fun hmem => (mem_of_mem_dedupRows rows hmem).2 List.mem_cons_self, ih _⟩

/-- Where rows of one text are the same, the order of the rows does not matter. -/
theorem dedupSelectRows_perm {rows rows' : List (List Lit)} (hperm : rows.Perm rows')
    (hsame : ∀ a ∈ rows, ∀ b ∈ rows, text a = text b → a = b) :
    (dedupSelectRows text rows).Perm (dedupSelectRows text rows') := by
  have hkeeps : ∀ xs ys : List (List Lit), xs.Perm ys →
      (∀ a ∈ xs, ∀ b ∈ xs, text a = text b → a = b) →
      ∀ a ∈ dedupSelectRows text xs, a ∈ dedupSelectRows text ys := by
    intro xs ys hxy hxs a ha
    have hmem := (mem_of_mem_dedupRows xs ha).1
    obtain ⟨kept, hkept, htext⟩ := @exists_mem_dedupRows text a ys [] (hxy.mem_iff.mp hmem)
      List.not_mem_nil
    have hkept' := hxy.mem_iff.mpr (mem_of_mem_dedupRows ys hkept).1
    rwa [← hxs kept hkept' a hmem htext]
  refine (List.perm_ext_iff_of_nodup (nodup_dedupRows rows [])
    (nodup_dedupRows rows' [])).mpr fun a =>
      ⟨hkeeps rows rows' hperm hsame a, hkeeps rows' rows hperm.symm ?_ a⟩
  exact fun a ha b hb => hsame a (hperm.mem_iff.mpr ha) b (hperm.mem_iff.mpr hb)

variable {fmt}

theorem finishRows_perm {X : Type} {q : TableSelect X} {items items' : List (List Lit × List Lit)}
    (hperm : items.Perm items') (hlimit : q.limit = none)
    (hsame : q.distinct = true → ∀ a ∈ items, ∀ b ∈ items, text a.2 = text b.2 → a.2 = b.2) :
    (finishRows fmt text q items).Perm (finishRows fmt text q items') := by
  have hsorted : ∀ xs : List (List Lit × List Lit), (if q.orderBy.isEmpty then xs
      else xs.mergeSort fun a b => compareOrder fmt q.orderBy a.1 b.1 != .gt).Perm xs := by
    intro xs
    split
    · exact .refl xs
    · exact List.mergeSort_perm xs _
  have hrows := (((hsorted items).trans hperm).trans (hsorted items').symm).map Prod.snd
  rw [finishRows, finishRows, hlimit]
  dsimp only [limitRows]
  split
  · rename_i hdistinct
    refine dedupSelectRows_perm hrows fun a ha b hb => ?_
    obtain ⟨x, hx, rfl⟩ := List.mem_map.mp ha
    obtain ⟨y, hy, rfl⟩ := List.mem_map.mp hb
    exact hsame hdistinct x ((hsorted items).mem_iff.mp hx) y ((hsorted items).mem_iff.mp hy)
  · exact hrows

end Rows

section Scan
variable {X : Type} (sem : Semantics X) (schema : TableSchema) (args : List Lit)
  (asOfMs : Option ℕ) (q : TableSelect X)

def rowScopeOf (entry : RowEntry) : Scope :=
  ctxScope (tableRowCtxFromRowColumns q.base.name schema entry.row q.columns)

/-- A visible row is kept where there is no predicate or it is true. -/
def keepsEntry (entry : RowEntry) : Except String Bool :=
  if rowVisibleAt asOfMs entry then
    match q.predicate with
    | none => .ok true
    | some pred => evalPredicate sem (rowScopeOf schema q entry) args pred
  else .ok false

/-- The order keys and the values that a row contributes. -/
def selectEntry (entry : RowEntry) : Except String (Option (List Lit × List Lit)) := do
  if ← keepsEntry sem schema args asOfMs q entry then
    let row ← q.projection.mapM (evalExpr sem (rowScopeOf schema q entry) args)
    let keys ← q.orderBy.mapM fun ob => evalExpr sem (rowScopeOf schema q entry) args ob.expr
    .ok (some (keys, row))
  else .ok none

/-- The loop over the rows of an access path stops at the first error. -/
def selectRows (text : LitsText) (entries : List RowEntry) : Except String (List (List Lit)) := do
  let items ← entries.mapM (selectEntry sem schema args asOfMs q)
  .ok (finishRows sem.fmt text q items.reduceOption)

end Scan

end SkeinDB.Queries
