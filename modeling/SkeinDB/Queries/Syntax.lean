import SkeinDB.Queries.Select
import SkeinDB.Tables.State

/-!
# Queries and the tables they name

`skeindb-skeinql/src/types.rs` and `skeindb/src/engine.rs`: a query names tables in its FROM
clause, in the queries of its WITH clause and in subqueries. `query_referenced_tables` lists them,
without the names that a WITH clause in scope defines, for the check of a credential and for the
dependencies of an answer.
-/
namespace SkeinDB.Queries
open SkeinDB.Tables

def BaseTableRef.key (base : BaseTableRef) : TableKey := ⟨base.db, base.table⟩

structure SelectItem (X : Type) where
  expr : Expr X
  alias? : Option String := none

inductive JoinType
  | inner
  | left
  | right
  | full
  | cross
  deriving DecidableEq

inductive LockMode
  | none
  | forUpdate
  | forShare
  deriving DecidableEq

inductive SetOpKind
  | union
  | intersect
  | except
  deriving DecidableEq

mutual

structure Query (X : Type) where
  ctes : List (Cte X) := []
  body : QueryBody X
  orderBy : List (OrderBy X) := []
  limit : Option LimitClause := none
  lock : Option LockMode := none

structure Cte (X : Type) where
  name : String
  query : Query X

inductive QueryBody (X : Type)
  | select (select : SelectBody X)
  | setop (kind : SetOpKind) (all : Bool) (left right : QueryBody X)

structure SelectBody (X : Type) where
  distinct : Option Bool := none
  projection : List (SelectItem X)
  tables : Option (List (TableRef X)) := none
  filter : Option (Expr X) := none
  groupBy : Option (List (Expr X)) := none
  having : Option (Expr X) := none

inductive TableRef (X : Type)
  | base (base : BaseTableRef)
  | join (type : JoinType) (left right : TableRef X) (on : Option (Expr X))
  | subquery (query : Query X) (name : String)

end

def toAsciiLowercase (name : String) : String := name.map Char.toLower

section References
variable {X : Type}

def cteNames (ctes : List (Cte X)) : List String := ctes.map fun cte => toAsciiLowercase cte.name

mutual

/-- The names of a WITH clause are in scope in all of its queries and in the body. -/
def collectTablesQuery (inherited : List String) : Query X → List TableKey
  | ⟨ctes, body, _, _, _⟩ =>
    collectTablesCtes (inherited ++ cteNames ctes) ctes ++
      collectTablesBody (inherited ++ cteNames ctes) body

def collectTablesCtes (names : List String) : List (Cte X) → List TableKey
  | [] => []
  | ⟨_, query⟩ :: ctes => collectTablesQuery names query ++ collectTablesCtes names ctes

def collectTablesBody (names : List String) : QueryBody X → List TableKey
  | .select ⟨_, _, tables, _, _, _⟩ => collectTablesFrom names tables
  | .setop _ _ left right => collectTablesBody names left ++ collectTablesBody names right

def collectTablesFrom (names : List String) : Option (List (TableRef X)) → List TableKey
  | none => []
  | some tables => collectTablesRefs names tables

def collectTablesRefs (names : List String) : List (TableRef X) → List TableKey
  | [] => []
  | table :: tables => collectTablesRef names table ++ collectTablesRefs names tables

def collectTablesRef (names : List String) : TableRef X → List TableKey
  | .base base => if toAsciiLowercase base.table ∈ names then [] else [base.key]
  | .join _ left right _ => collectTablesRef names left ++ collectTablesRef names right
  | .subquery query _ => collectTablesQuery names query

end

def collectTables (query : Query X) : List TableKey := collectTablesQuery [] query

/-- Each table once, where it comes first. -/
def firsts {α : Type} [DecidableEq α] (xs : List α) : List α :=
  xs.foldl (fun out x => if x ∈ out then out else out ++ [x]) []

def queryReferencedTables (query : Query X) : List TableKey := firsts (collectTables query)

theorem mem_firsts {α : Type} [DecidableEq α] {xs : List α} {x : α} : x ∈ firsts xs ↔ x ∈ xs := by
  have hfold : ∀ (xs out : List α), x ∈ xs.foldl (fun out x => if x ∈ out then out else
      out ++ [x]) out ↔ x ∈ out ∨ x ∈ xs := by
    intro xs
    induction xs with
    | nil => simp
    | cons y ys ih =>
      intro out
      rw [List.foldl_cons, ih]
      split
      · grind
      · grind
  rw [firsts, hfold]
  simp

mutual

/-- No table is listed whose name a WITH clause in scope defines. -/
theorem collectTablesQuery_unshadowed {names : List String} {key : TableKey} (query : Query X)
    (h : key ∈ collectTablesQuery names query) :
    toAsciiLowercase key.table ∉ names ++ cteNames query.ctes := by
  rcases query with ⟨ctes, body, orderBy, limit, lock⟩
  rw [collectTablesQuery] at h
  rcases List.mem_append.mp h with h | h
  · exact collectTablesCtes_unshadowed ctes h
  · exact collectTablesBody_unshadowed body h

theorem collectTablesCtes_unshadowed {names : List String} {key : TableKey} (ctes : List (Cte X))
    (h : key ∈ collectTablesCtes names ctes) : toAsciiLowercase key.table ∉ names := by
  rcases ctes with _ | ⟨⟨name, query⟩, ctes⟩
  · cases h
  · rw [collectTablesCtes] at h
    rcases List.mem_append.mp h with h | h
    · have hquery := collectTablesQuery_unshadowed query h
      exact fun hmem => hquery (List.mem_append_left _ hmem)
    · exact collectTablesCtes_unshadowed ctes h

theorem collectTablesBody_unshadowed {names : List String} {key : TableKey} (body : QueryBody X)
    (h : key ∈ collectTablesBody names body) : toAsciiLowercase key.table ∉ names := by
  rcases body with ⟨⟨distinct, projection, tables, filter, groupBy, having⟩⟩ |
    ⟨kind, all, left, right⟩
  · exact collectTablesFrom_unshadowed tables h
  · rw [collectTablesBody] at h
    rcases List.mem_append.mp h with h | h
    · exact collectTablesBody_unshadowed left h
    · exact collectTablesBody_unshadowed right h

theorem collectTablesFrom_unshadowed {names : List String} {key : TableKey}
    (tables : Option (List (TableRef X))) (h : key ∈ collectTablesFrom names tables) :
    toAsciiLowercase key.table ∉ names := by
  rcases tables with _ | tables
  · cases h
  · exact collectTablesRefs_unshadowed tables h

theorem collectTablesRefs_unshadowed {names : List String} {key : TableKey}
    (tables : List (TableRef X)) (h : key ∈ collectTablesRefs names tables) :
    toAsciiLowercase key.table ∉ names := by
  rcases tables with _ | ⟨table, tables⟩
  · cases h
  · rw [collectTablesRefs] at h
    rcases List.mem_append.mp h with h | h
    · exact collectTablesRef_unshadowed table h
    · exact collectTablesRefs_unshadowed tables h

theorem collectTablesRef_unshadowed {names : List String} {key : TableKey} (table : TableRef X)
    (h : key ∈ collectTablesRef names table) : toAsciiLowercase key.table ∉ names := by
  rcases table with base | ⟨type, left, right, on⟩ | ⟨query, name⟩
  · rw [collectTablesRef] at h
    split at h
    · cases h
    · rename_i hname
      obtain rfl := List.mem_singleton.mp h
      exact hname
  · rw [collectTablesRef] at h
    rcases List.mem_append.mp h with h | h
    · exact collectTablesRef_unshadowed left h
    · exact collectTablesRef_unshadowed right h
  · have hquery := collectTablesQuery_unshadowed query h
    exact fun hmem => hquery (List.mem_append_left _ hmem)

end

end References

end SkeinDB.Queries
