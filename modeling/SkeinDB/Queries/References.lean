import Mathlib.Data.List.TakeWhile
import SkeinDB.Queries.Execute
import SkeinDB.Tables.Maintenance

/-!
# Every table that is read is listed

`skeindb/src/engine.rs`: the list of `query_referenced_tables` is what a credential is checked
against, and `dependencies_for_query` takes the versions of an answer from it. The executor reads
the tables of the FROM clause up to the first subquery. It knows nothing of the WITH clause, whose
names the list leaves out.
-/
namespace SkeinDB.Queries
open SkeinDB.Tables SkeinDB.Transition

section Dependencies

structure QueryDependency extends CausalityDependency where
  stale : Option Bool := none

def dotted (key : TableKey) : String := key.db ++ "." ++ key.table

def dependencyOf (e : ReadEngine) (key : TableKey) : Except String QueryDependency :=
  match e.getSchema key with
  | .ok schema => .ok { table := dotted key, v := some schema.tableVersion }
  | .error _ =>
    match e.views key with
    | some view => .ok { table := dotted key, view := some true,
                         changeSeq := some view.lastChangeSeq, stale := some view.stale }
    | none => .error ("table not found: " ++ dotted key)

/-- One entry for each text of a table. -/
def dependenciesFrom (e : ReadEngine) (seen : List String) :
    List TableKey → Except String (List QueryDependency)
  | [] => .ok []
  | key :: keys =>
    if dotted key ∈ seen then dependenciesFrom e seen keys
    else do
      let dep ← dependencyOf e key
      let deps ← dependenciesFrom e (dotted key :: seen) keys
      .ok (dep :: deps)

def dependenciesForQuery {X : Type} (e : ReadEngine) (query : Query X) :
    Except String (List QueryDependency) :=
  dependenciesFrom e [] (collectTables query)

/-- An entry that two engines have in common stands for the same contents in both, for every table
of its text: the tables `a."b.c"` and `"a.b".c` share one. -/
def Identifies (e e' : ReadEngine) : Prop :=
  ∀ key dep, dependencyOf e key = .ok dep → dependencyOf e' key = .ok dep →
    ∀ key', dotted key' = dep.table → e.holding key' = e'.holding key'

theorem dependencyOf_table {e : ReadEngine} {key : TableKey} {dep : QueryDependency}
    (h : dependencyOf e key = .ok dep) : dep.table = dotted key := by
  unfold dependencyOf at h
  split at h
  · cases h
    rfl
  · split at h
    · cases h
      rfl
    · cases h

/-- Two lists that are equal have an entry in common for each table. -/
theorem dependenciesFrom_common {e e' : ReadEngine} {key : TableKey} (keys : List TableKey)
    {seen : List String} {deps : List QueryDependency}
    (h : dependenciesFrom e seen keys = .ok deps) (h' : dependenciesFrom e' seen keys = .ok deps)
    (hkey : key ∈ keys) (hseen : dotted key ∉ seen) :
    ∃ first dep, dependencyOf e first = .ok dep ∧ dependencyOf e' first = .ok dep ∧
      dotted first = dotted key := by
  induction keys generalizing seen deps with
  | nil => cases hkey
  | cons head keys ih =>
    rw [dependenciesFrom] at h h'
    split at h
    · rename_i hhead
      rw [if_pos hhead] at h'
      rcases List.mem_cons.mp hkey with rfl | hkey
      · exact absurd hhead hseen
      · exact ih h h' hkey hseen
    · rename_i hhead
      rw [if_neg hhead] at h'
      rcases hdep : dependencyOf e head with error | dep
      · rw [hdep] at h
        cases h
      rcases hdep' : dependencyOf e' head with error | dep'
      · rw [hdep'] at h'
        cases h'
      rcases hrest : dependenciesFrom e (dotted head :: seen) keys with error | rest
      · rw [hdep, hrest] at h
        cases h
      rcases hrest' : dependenciesFrom e' (dotted head :: seen) keys with error | rest'
      · rw [hdep', hrest'] at h'
        cases h'
      rw [hdep, hrest] at h
      rw [hdep', hrest'] at h'
      cases h
      cases h'
      by_cases hsame : dotted head = dotted key
      · exact ⟨head, dep, hdep, hdep', hsame⟩
      · rcases List.mem_cons.mp hkey with rfl | hkey
        · exact absurd rfl hsame
        · refine ih hrest hrest' hkey ?_
          rw [List.mem_cons, not_or]
          exact ⟨Ne.symm hsame, hseen⟩

end Dependencies

section Leaves
variable {X : Type}

/-- The tables of a FROM item in the order in which they are read; a subquery has no name. -/
def TableRef.leaves : TableRef X → List (Option TableKey)
  | .base table => [some table.key]
  | .join _ left right _ => left.leaves ++ right.leaves
  | .subquery _ _ => [none]

/-- The names before the first subquery. -/
def upTo (leaves : List (Option TableKey)) : List TableKey :=
  (leaves.takeWhile Option.isSome).reduceOption

theorem upTo_cons_some (key : TableKey) (leaves : List (Option TableKey)) :
    upTo (some key :: leaves) = key :: upTo leaves := rfl

theorem upTo_append {xs : List (Option TableKey)} (hxs : ∀ x ∈ xs, x.isSome)
    (ys : List (Option TableKey)) : upTo (xs ++ ys) = upTo xs ++ upTo ys := by
  induction xs with
  | nil => rfl
  | cons x xs ih =>
    obtain ⟨key, rfl⟩ := Option.isSome_iff_exists.mp (hxs x List.mem_cons_self)
    rw [List.cons_append, upTo_cons_some, upTo_cons_some, List.cons_append,
      ih fun x hx => hxs x (List.mem_cons_of_mem _ hx)]

theorem upTo_append_of_none {xs : List (Option TableKey)} (hxs : none ∈ xs)
    (ys : List (Option TableKey)) : upTo (xs ++ ys) = upTo xs := by
  induction xs with
  | nil => cases hxs
  | cons x xs ih =>
    rcases x with _ | key
    · rfl
    · have hmem : none ∈ xs := by simpa using hxs
      rw [List.cons_append, upTo_cons_some, upTo_cons_some, ih hmem]

theorem all_some_or_none_mem (xs : List (Option TableKey)) :
    (∀ x ∈ xs, x.isSome) ∨ none ∈ xs := by
  by_cases h : none ∈ xs
  · exact .inr h
  · exact .inl fun x hx => Option.isSome_iff_ne_none.mpr fun hnone => h (hnone ▸ hx)

theorem mem_upTo {xs : List (Option TableKey)} {key : TableKey} (h : key ∈ upTo xs) :
    some key ∈ xs :=
  List.takeWhile_subset _ (List.reduceOption_mem_iff.mp h)

theorem mem_upTo_of_all {xs : List (Option TableKey)} (hxs : ∀ x ∈ xs, x.isSome) {key : TableKey}
    (h : some key ∈ xs) : key ∈ upTo xs := by
  rw [upTo, List.takeWhile_eq_self_iff.mpr hxs]
  exact List.reduceOption_mem_iff.mpr h

theorem upTo_left {xs ys : List (Option TableKey)} {key : TableKey} (h : key ∈ upTo xs) :
    key ∈ upTo (xs ++ ys) := by
  rcases all_some_or_none_mem xs with hall | hnone
  · rw [upTo_append hall]
    exact List.mem_append_left _ h
  · rw [upTo_append_of_none hnone]
    exact h

theorem upTo_right {xs ys : List (Option TableKey)} (hxs : ∀ x ∈ xs, x.isSome) {key : TableKey}
    (h : key ∈ upTo ys) : key ∈ upTo (xs ++ ys) := by
  rw [upTo_append hxs]
  exact List.mem_append_right _ h

/-- The tables that the executor can come to: nothing is read for a set operation, or where the
GROUP BY is refused. -/
def reachedTables (otherHaving : List (SelectItem X) → X → Except String X) (query : Query X) :
    List TableKey :=
  match query.body with
  | .setop _ _ _ _ => []
  | .select select =>
    match selectEffectivePredicate otherHaving select with
    | .error _ => []
    | .ok _ => upTo ((select.tables.getD []).flatMap TableRef.leaves)

theorem reachedTables_of_ok {otherHaving : List (SelectItem X) → X → Except String X}
    {query : Query X} {select : SelectBody X} {predicate : Option (Expr X)}
    (hbody : query.body = .select select)
    (h : selectEffectivePredicate otherHaving select = .ok predicate) :
    reachedTables otherHaving query = upTo ((select.tables.getD []).flatMap TableRef.leaves) := by
  simp only [reachedTables, hbody, h]

end Leaves

section Runs
variable {X ι : Type} {sem : SelectSemantics X ι} {held : TableKey → Holding} {args : List Lit}
  {asOfMs : Option ℕ} {P : List Read → Prop}

/-- A read of the table keeps what holds of the reads so far. -/
def Extends (P : List Read → Prop) (key : TableKey) : Prop :=
  ∀ read : Read, read.key = key → ∀ log, P log → P (log ++ [read])

theorem preserves_note {read : Read} (h : Extends P read.key) : Preserves P (note read) :=
  preserves_modify fun log hlog => h read rfl log hlog

theorem preserves_answered {α : Type} (x : Except String α) : Preserves P (answered x) := by
  cases x with
  | ok a => exact preserves_pure a
  | error e => exact preserves_throw e

theorem ok_of_answered {α : Type} {x : Except String α} {a : α} {log log' : List Read}
    (h : answered x log = .ok a log') : x = .ok a := by
  cases x with
  | ok b =>
    cases h
    rfl
  | error e => cases h

theorem scanTable_preserves {base : BaseTableRef} (h : Extends P base.key) :
    Preserves P (scanTable sem held base asOfMs) := by
  rw [scanTable]
  split
  · exact (preserves_note h).bind fun _ => preserves_pure _
  · refine (preserves_answered _).bind fun t => (preserves_note h).bind fun _ => ?_
    exact (preserves_answered _).bind fun entries => preserves_pure _

/-- An item that is evaluated holds no subquery. -/
theorem evalFrom_ok_leaves (table : TableRef X) {asOfMs : Option ℕ} {log log' : List Read}
    {rows : List RowCtx} (h : evalFrom sem held args asOfMs table log = .ok rows log') :
    ∀ leaf ∈ table.leaves, leaf.isSome := by
  rcases table with base | ⟨type, left, right, on⟩ | ⟨query, name⟩
  · intro leaf hleaf
    rw [List.mem_singleton.mp hleaf]
    rfl
  · rw [evalFrom] at h
    obtain ⟨leftRows, log₁, hleft, h⟩ := bind_ok.mp h
    obtain ⟨rightRows, log₂, hright, -⟩ := bind_ok.mp h
    intro leaf hleaf
    rcases List.mem_append.mp hleaf with hleaf | hleaf
    · exact evalFrom_ok_leaves left hleft leaf hleaf
    · exact evalFrom_ok_leaves right hright leaf hleaf
  · cases h

/-- Only the tables before the first subquery are read. -/
theorem evalFrom_preserves (table : TableRef X) {asOfMs : Option ℕ}
    (h : ∀ key ∈ upTo table.leaves, Extends P key) :
    Preserves P (evalFrom sem held args asOfMs table) := by
  rcases table with base | ⟨type, left, right, on⟩ | ⟨query, name⟩
  · exact scanTable_preserves (h base.key List.mem_cons_self)
  · rw [evalFrom]
    refine (evalFrom_preserves left fun key hkey => h key (upTo_left hkey)).bind_ok ?_
    intro leftRows log log' hleft
    have hall := evalFrom_ok_leaves left hleft
    refine (evalFrom_preserves right fun key hkey => h key (upTo_right hall hkey)).bind ?_
    exact fun rightRows => (preserves_answered _).bind fun nulls => preserves_answered _
  · exact preserves_throw _

theorem evalProduct_preserves (tables : List (TableRef X)) {ctxs : List RowCtx}
    (h : ∀ key ∈ upTo (tables.flatMap TableRef.leaves), Extends P key) :
    Preserves P (evalProduct sem held args asOfMs ctxs tables) := by
  induction tables generalizing ctxs with
  | nil => exact preserves_pure ctxs
  | cons table tables ih =>
    rw [evalProduct]
    rw [List.flatMap_cons] at h
    refine (evalFrom_preserves table fun key hkey => h key (upTo_left hkey)).bind_ok ?_
    intro rows log log' hrows
    exact ih fun key hkey => h key (upTo_right (evalFrom_ok_leaves table hrows) hkey)

theorem singleTable_base {query : Query X} {select : SelectBody X} {predicate : Option (Expr X)}
    {tables : List (TableRef X)} {q : SingleTable X}
    (h : singleTable query select predicate tables = some q) : tables = [.base q.base] := by
  unfold singleTable at h
  split at h
  · cases h
    rfl
  · cases h

theorem evalFirst_preserves {q : Option (SingleTable X)} {first : TableRef X}
    (hq : ∀ single ∈ q, Extends P single.base.key)
    (h : ∀ key ∈ upTo first.leaves, Extends P key) :
    Preserves P (evalFirst sem held args asOfMs q first) := by
  unfold evalFirst
  split
  · exact evalFrom_preserves first h
  · rename_i single
    split
    · exact evalFrom_preserves first h
    · refine (preserves_answered _).bind fun t => ?_
      exact (preserves_note (hq single rfl)).bind fun _ => preserves_pure _

theorem evalFirst_ok_leaves {query : Query X} {select : SelectBody X}
    {predicate : Option (Expr X)} {first : TableRef X} {rest : List (TableRef X)}
    {log log' : List Read} {rows : List RowCtx}
    (h : evalFirst sem held args asOfMs (singleTable query select predicate (first :: rest)) first
      log = .ok rows log') : ∀ leaf ∈ first.leaves, leaf.isSome := by
  rcases hq : singleTable query select predicate (first :: rest) with _ | q
  · rw [hq] at h
    exact evalFrom_ok_leaves first h
  · obtain ⟨rfl, -⟩ := List.cons.inj (singleTable_base hq)
    intro leaf hleaf
    rw [List.mem_singleton.mp hleaf]
    rfl

variable [DecidableEq ι]

theorem trySnapshot_preserves {q : SingleTable X} {held : Holding} (h : Extends P q.base.key) :
    Preserves P (q.trySnapshot sem held args asOfMs) := by
  unfold SingleTable.trySnapshot
  split
  · exact preserves_pure _
  split
  · exact preserves_pure _
  split
  · refine (preserves_note h).bind fun _ => ?_
    dsimp only
    split
    · exact preserves_pure _
    split
    · exact preserves_pure _
    · refine (preserves_note h).bind fun _ => ?_
      exact (preserves_answered _).bind fun rows => preserves_pure _
  · exact preserves_pure _

theorem tryBaseTable_preserves {q : SingleTable X} {held : Holding} (h : Extends P q.base.key) :
    Preserves P (q.tryBaseTable sem held args asOfMs) := by
  unfold SingleTable.tryBaseTable
  split
  · exact preserves_pure _
  · refine (preserves_answered _).bind fun t => (preserves_note h).bind fun _ => ?_
    exact (preserves_answered _).bind fun rows => preserves_pure _

theorem trySingleTable_preserves {q : Option (SingleTable X)}
    (h : ∀ single ∈ q, Extends P single.base.key) :
    Preserves P (trySingleTable sem held args asOfMs q) := by
  rcases q with _ | single
  · exact preserves_pure _
  · refine (trySnapshot_preserves (h single rfl)).bind fun answer => ?_
    rcases answer with _ | rows
    · exact tryBaseTable_preserves (h single rfl)
    · exact preserves_pure _

/-- What is read for a query is what its FROM clause comes to. -/
theorem evalSelect_preserves {query : Query X} {select : SelectBody X}
    {predicate : Option (Expr X)} (tables : List (TableRef X))
    (h : ∀ key ∈ upTo (tables.flatMap TableRef.leaves), Extends P key) :
    Preserves P (evalSelect sem held args asOfMs query select predicate tables) := by
  rcases tables with _ | ⟨first, rest⟩
  · exact preserves_throw _
  rw [List.flatMap_cons] at h
  have hsingle : ∀ q ∈ singleTable query select predicate (first :: rest),
      Extends P q.base.key := by
    intro q hq
    obtain ⟨rfl, rfl⟩ := List.cons.inj (singleTable_base hq)
    exact h q.base.key List.mem_cons_self
  rw [evalSelect]
  refine (trySingleTable_preserves hsingle).bind fun answer => ?_
  rcases answer with _ | rows
  · refine (evalFirst_preserves hsingle fun key hkey => h key (upTo_left hkey)).bind_ok ?_
    intro ctxs log log' hctxs
    refine (evalProduct_preserves rest fun key hkey => h key (upTo_right ?_ hkey)).bind
      fun ctxs => preserves_answered _
    exact evalFirst_ok_leaves hctxs
  · exact preserves_pure _

theorem executeSelect_preserves {query : Query X}
    (h : ∀ key ∈ reachedTables sem.otherHaving query, Extends P key) :
    Preserves P (executeSelect sem held args asOfMs query) := by
  rw [executeSelect]
  split
  · exact preserves_throw _
  · rename_i select hbody
    refine (preserves_answered _).bind_ok fun predicate log log' hok => ?_
    rw [reachedTables_of_ok hbody (ok_of_answered hok)] at h
    exact evalSelect_preserves _ h

end Runs

section Agreement
variable {X ι : Type} {sem : SelectSemantics X ι} {held held' : TableKey → Holding}
  {args : List Lit} {asOfMs : Option ℕ}

theorem scanTable_congr {base : BaseTableRef} (h : held base.key = held' base.key) :
    scanTable sem held base asOfMs = scanTable sem held' base asOfMs := by
  rw [scanTable, scanTable, h]

theorem nullRowCtxForRef_congr (table : TableRef X)
    (h : ∀ key, some key ∈ table.leaves → held key = held' key) :
    nullRowCtxForRef held table = nullRowCtxForRef held' table := by
  rcases table with base | ⟨type, left, right, on⟩ | ⟨query, name⟩
  · rw [nullRowCtxForRef, nullRowCtxForRef, h base.key List.mem_cons_self]
  · rw [nullRowCtxForRef, nullRowCtxForRef,
      nullRowCtxForRef_congr left fun key hkey => h key (List.mem_append_left _ hkey),
      nullRowCtxForRef_congr right fun key hkey => h key (List.mem_append_right _ hkey)]
  · rfl

/-- The run depends on nothing but what is held before the first subquery. -/
theorem evalFrom_congr (table : TableRef X) {asOfMs : Option ℕ} {log : List Read}
    (h : ∀ key ∈ upTo table.leaves, held key = held' key) :
    evalFrom sem held args asOfMs table log = evalFrom sem held' args asOfMs table log := by
  rcases table with base | ⟨type, left, right, on⟩ | ⟨query, name⟩
  · rw [evalFrom, evalFrom, scanTable_congr (h base.key List.mem_cons_self)]
  · rw [evalFrom, evalFrom]
    refine bind_congr (evalFrom_congr left fun key hkey => h key (upTo_left hkey)) ?_
    intro leftRows log₁ hleft
    have hl := evalFrom_ok_leaves left hleft
    refine bind_congr (evalFrom_congr right fun key hkey => h key (upTo_right hl hkey)) ?_
    intro rightRows log₂ hright
    have hr := evalFrom_ok_leaves right hright
    have hnullsLeft : nullRowCtxForRef held left = nullRowCtxForRef held' left :=
      nullRowCtxForRef_congr left fun key hkey => h key (upTo_left (mem_upTo_of_all hl hkey))
    have hnullsRight : nullRowCtxForRef held right = nullRowCtxForRef held' right :=
      nullRowCtxForRef_congr right fun key hkey =>
        h key (upTo_right hl (mem_upTo_of_all hr hkey))
    have hnulls : joinNulls held type left right = joinNulls held' type left right := by
      unfold joinNulls
      rw [hnullsLeft, hnullsRight]
    rw [hnulls]
  · rfl

theorem evalProduct_congr (tables : List (TableRef X)) {ctxs : List RowCtx} {log : List Read}
    (h : ∀ key ∈ upTo (tables.flatMap TableRef.leaves), held key = held' key) :
    evalProduct sem held args asOfMs ctxs tables log =
      evalProduct sem held' args asOfMs ctxs tables log := by
  induction tables generalizing ctxs log with
  | nil => rfl
  | cons table tables ih =>
    rw [List.flatMap_cons] at h
    rw [evalProduct, evalProduct]
    refine bind_congr (evalFrom_congr table fun key hkey => h key (upTo_left hkey)) ?_
    intro rows log' hrows
    exact ih fun key hkey => h key (upTo_right (evalFrom_ok_leaves table hrows) hkey)

theorem evalFirst_congr {q : Option (SingleTable X)} {first : TableRef X} {log : List Read}
    (hq : ∀ single ∈ q, held single.base.key = held' single.base.key)
    (h : ∀ key ∈ upTo first.leaves, held key = held' key) :
    evalFirst sem held args asOfMs q first log = evalFirst sem held' args asOfMs q first log := by
  rcases q with _ | single
  · exact evalFrom_congr first h
  · have hfrom : evalFrom sem held args asOfMs first log =
        evalFrom sem held' args asOfMs first log := evalFrom_congr first h
    simp only [evalFirst, hq single rfl]
    rcases single.indexRows sem (held' single.base.key) args with _ | candidates
    · exact hfrom
    · rfl

variable [DecidableEq ι]

theorem trySingleTable_congr {q : Option (SingleTable X)}
    (hq : ∀ single ∈ q, held single.base.key = held' single.base.key) :
    trySingleTable sem held args asOfMs q = trySingleTable sem held' args asOfMs q := by
  rcases q with _ | single
  · rfl
  · rw [trySingleTable, trySingleTable, hq single rfl]

theorem evalSelect_congr {query : Query X} {select : SelectBody X} {predicate : Option (Expr X)}
    (tables : List (TableRef X)) {log : List Read}
    (h : ∀ key ∈ upTo (tables.flatMap TableRef.leaves), held key = held' key) :
    evalSelect sem held args asOfMs query select predicate tables log =
      evalSelect sem held' args asOfMs query select predicate tables log := by
  rcases tables with _ | ⟨first, rest⟩
  · rfl
  rw [List.flatMap_cons] at h
  have hsingle : ∀ q ∈ singleTable query select predicate (first :: rest),
      held q.base.key = held' q.base.key := by
    intro q hq
    obtain ⟨rfl, rfl⟩ := List.cons.inj (singleTable_base hq)
    exact h q.base.key List.mem_cons_self
  rw [evalSelect, evalSelect, trySingleTable_congr hsingle]
  refine bind_congr rfl fun answer log' _ => ?_
  rcases answer with _ | rows
  · refine bind_congr (evalFirst_congr hsingle fun key hkey => h key (upTo_left hkey)) ?_
    intro ctxs log'' hctxs
    refine bind_congr (evalProduct_congr rest fun key hkey => h key (upTo_right ?_ hkey))
      fun _ _ _ => rfl
    exact evalFirst_ok_leaves hctxs
  · rfl

theorem executeSelect_congr {query : Query X} {log : List Read}
    (h : ∀ key ∈ reachedTables sem.otherHaving query, held key = held' key) :
    executeSelect sem held args asOfMs query log =
      executeSelect sem held' args asOfMs query log := by
  rw [executeSelect, executeSelect]
  rcases hbody : query.body with select | ⟨kind, all, left, right⟩
  case setop => rfl
  case select =>
    refine bind_congr rfl fun predicate log' hok => ?_
    rw [reachedTables_of_ok hbody (ok_of_answered hok)] at h
    exact evalSelect_congr _ h

end Agreement

section Views
variable {X ι : Type} {sem : SelectSemantics X ι} {held : TableKey → Holding} {args : List Lit}
  {asOfMs : Option ℕ} {view : View}

/-- What was read stays noted. -/
theorem extends_mem (read : Read) (key : TableKey) : Extends (fun log => read ∈ log) key :=
  fun _ _ _ hlog => List.mem_append_left _ hlog

theorem scanTable_view {base : BaseTableRef} (h : (held base.key).view = some view)
    (hrows : view.rows = []) (log : List Read) :
    scanTable sem held base asOfMs log = .ok [] (log ++ [.view base.key view]) := by
  simp only [scanTable, h, hrows]
  rfl

theorem nullRowCtxForRef_views (table : TableRef X) (hall : ∀ leaf ∈ table.leaves, leaf.isSome)
    (h : ∀ key, some key ∈ table.leaves → (held key).view = some view) :
    ∃ nulls, nullRowCtxForRef held table = .ok nulls := by
  rcases table with base | ⟨type, left, right, on⟩ | ⟨query, name⟩
  · rw [nullRowCtxForRef, h base.key List.mem_cons_self]
    exact ⟨_, rfl⟩
  · obtain ⟨a, ha⟩ := nullRowCtxForRef_views left
      (fun leaf hleaf => hall leaf (List.mem_append_left _ hleaf))
      fun key hkey => h key (List.mem_append_left _ hkey)
    obtain ⟨b, hb⟩ := nullRowCtxForRef_views right
      (fun leaf hleaf => hall leaf (List.mem_append_right _ hleaf))
      fun key hkey => h key (List.mem_append_right _ hkey)
    rw [nullRowCtxForRef, ha, hb]
    exact ⟨_, rfl⟩
  · exact absurd (hall none List.mem_cons_self) Bool.false_ne_true

theorem joinNulls_views {type : JoinType} {left right : TableRef X}
    (hleft : ∃ nulls, nullRowCtxForRef held left = .ok nulls)
    (hright : ∃ nulls, nullRowCtxForRef held right = .ok nulls) :
    ∃ nulls, joinNulls held type left right = .ok nulls := by
  obtain ⟨a, ha⟩ := hleft
  obtain ⟨b, hb⟩ := hright
  unfold joinNulls
  rw [ha, hb]
  cases type <;> exact ⟨_, rfl⟩

theorem joinRows_nil (type : JoinType) (on : Option (Expr X)) (a b : RowCtx) :
    joinRows sem args type on [] [] a b = .ok [] := by
  cases type <;> rfl

/-- Where every name stands for an empty view, an item without a subquery is evaluated. -/
theorem evalFrom_views (table : TableRef X) {asOfMs : Option ℕ} (log : List Read)
    (hall : ∀ leaf ∈ table.leaves, leaf.isSome)
    (h : ∀ key, some key ∈ table.leaves → (held key).view = some view) (hrows : view.rows = []) :
    ∃ log', evalFrom sem held args asOfMs table log = .ok [] log' := by
  rcases table with base | ⟨type, left, right, on⟩ | ⟨query, name⟩
  · exact ⟨_, scanTable_view (h base.key List.mem_cons_self) hrows log⟩
  · have hallLeft : ∀ leaf ∈ left.leaves, leaf.isSome := fun leaf hleaf =>
      hall leaf (List.mem_append_left _ hleaf)
    have hallRight : ∀ leaf ∈ right.leaves, leaf.isSome := fun leaf hleaf =>
      hall leaf (List.mem_append_right _ hleaf)
    have hl := fun key hkey => h key (List.mem_append_left _ hkey)
    have hr := fun key hkey => h key (List.mem_append_right _ hkey)
    obtain ⟨log₁, hleft⟩ := @evalFrom_views left none log hallLeft hl hrows
    obtain ⟨log₂, hright⟩ := @evalFrom_views right none log₁ hallRight hr hrows
    obtain ⟨nulls, hnulls⟩ := @joinNulls_views X held type left right
      (nullRowCtxForRef_views left hallLeft hl) (nullRowCtxForRef_views right hallRight hr)
    refine ⟨log₂, ?_⟩
    rw [evalFrom, bind_of_ok hleft, bind_of_ok hright, hnulls]
    exact (bind_of_ok rfl).trans (congrFun (congrArg answered (joinRows_nil type on _ _)) log₂)
  · exact absurd (hall none List.mem_cons_self) Bool.false_ne_true

/-- Every table before the first subquery is read there. -/
theorem evalFrom_reads (table : TableRef X) {asOfMs : Option ℕ} (log : List Read)
    (h : ∀ key ∈ upTo table.leaves, (held key).view = some view) (hrows : view.rows = [])
    {key : TableKey} (hkey : key ∈ upTo table.leaves) :
    Read.view key view ∈ final (evalFrom sem held args asOfMs table log) := by
  rcases table with base | ⟨type, left, right, on⟩ | ⟨query, name⟩
  · obtain rfl : key = base.key := List.mem_singleton.mp hkey
    rw [evalFrom, scanTable_view (h base.key List.mem_cons_self) hrows]
    exact List.mem_append_right _ List.mem_cons_self
  · have hrest : ∀ rightRows leftRows, Preserves (Read.view key view ∈ ·) (do
        let nulls ← answered (joinNulls held type left right)
        answered (joinRows sem args type on leftRows rightRows nulls.1 nulls.2)) :=
      fun _ _ => (preserves_answered _).bind fun nulls => preserves_answered _
    have hl := fun key hkey => h key (upTo_left hkey)
    rw [evalFrom]
    rcases all_some_or_none_mem left.leaves with hall | hnone
    · obtain ⟨log₁, hleft⟩ := @evalFrom_views X ι sem held args view left none log hall
        (fun key hkey => hl key (mem_upTo_of_all hall hkey)) hrows
      have hreads : key ∈ upTo left.leaves → Read.view key view ∈ log₁ := by
        intro hkey
        have hmem := @evalFrom_reads left none log hl hrows key hkey
        rwa [hleft] at hmem
      rw [bind_of_ok hleft]
      rw [TableRef.leaves, upTo_append hall] at hkey
      rcases List.mem_append.mp hkey with hkey | hkey
      · refine final_bind_of ?_ fun rightRows => hrest rightRows []
        exact evalFrom_preserves right (fun _ _ => extends_mem _ _) log₁ (hreads hkey)
      · refine final_bind_of ?_ fun rightRows => hrest rightRows []
        exact evalFrom_reads right log₁ (fun key hkey => h key (upTo_right hall hkey)) hrows hkey
    · rw [TableRef.leaves, upTo_append_of_none hnone] at hkey
      refine final_bind_of (evalFrom_reads left log hl hrows hkey) fun leftRows => ?_
      exact (evalFrom_preserves right fun _ _ => extends_mem _ _).bind fun rightRows =>
        hrest rightRows leftRows
  · cases hkey

theorem evalFrom_bind_reads {table : TableRef X} {later : List (Option TableKey)} {α : Type}
    {rest : List RowCtx → Reading α} {asOfMs : Option ℕ} {log : List Read} {key : TableKey}
    (h : ∀ key ∈ upTo (table.leaves ++ later), (held key).view = some view)
    (hrows : view.rows = []) (hkey : key ∈ upTo (table.leaves ++ later))
    (hkeeps : ∀ rows, Preserves (Read.view key view ∈ ·) (rest rows))
    (hrest : ∀ log, (∀ key ∈ upTo later, (held key).view = some view) → key ∈ upTo later →
      Read.view key view ∈ final (rest [] log)) :
    Read.view key view ∈ final ((evalFrom sem held args asOfMs table >>= rest) log) := by
  have hl := fun key hkey => h key (upTo_left hkey)
  by_cases htable : key ∈ upTo table.leaves
  · exact final_bind_of (evalFrom_reads table log hl hrows htable) hkeeps
  · rcases all_some_or_none_mem table.leaves with hall | hnone
    · obtain ⟨log₁, hok⟩ := @evalFrom_views X ι sem held args view table asOfMs log hall
        (fun key hkey => hl key (mem_upTo_of_all hall hkey)) hrows
      rw [bind_of_ok hok]
      rw [upTo_append hall] at hkey
      rcases List.mem_append.mp hkey with hkey | hkey
      · exact absurd hkey htable
      · exact hrest log₁ (fun key hkey => h key (upTo_right hall hkey)) hkey
    · rw [upTo_append_of_none hnone] at hkey
      exact absurd hkey htable

theorem evalProduct_reads (tables : List (TableRef X)) (ctxs : List RowCtx) (log : List Read)
    (h : ∀ key ∈ upTo (tables.flatMap TableRef.leaves), (held key).view = some view)
    (hrows : view.rows = []) {key : TableKey} (hkey : key ∈ upTo (tables.flatMap TableRef.leaves)) :
    Read.view key view ∈ final (evalProduct sem held args asOfMs ctxs tables log) := by
  induction tables generalizing ctxs log with
  | nil => cases hkey
  | cons table tables ih =>
    rw [evalProduct]
    exact evalFrom_bind_reads h hrows hkey
      (fun rows => evalProduct_preserves tables fun _ _ => extends_mem _ _)
      fun log h hkey => ih _ log h hkey

/-- An engine in which names stand for empty views. -/
def viewEngine (keys : List TableKey) : ReadEngine where
  views key := if key ∈ keys then some { columns := [] } else none

variable [DecidableEq ι]

/-- A view is not answered from a snapshot, from the rows of a table or from an index. -/
theorem evalSelect_reads {query : Query X} {select : SelectBody X} {predicate : Option (Expr X)}
    (tables : List (TableRef X)) (log : List Read)
    (h : ∀ key ∈ upTo (tables.flatMap TableRef.leaves), (held key).view = some view)
    (hrows : view.rows = []) {key : TableKey} (hkey : key ∈ upTo (tables.flatMap TableRef.leaves)) :
    Read.view key view ∈
      final (evalSelect sem held args asOfMs query select predicate tables log) := by
  rcases tables with _ | ⟨first, rest⟩
  · cases hkey
  rw [List.flatMap_cons] at h hkey
  have hnone : trySingleTable sem held args asOfMs
      (singleTable query select predicate (first :: rest)) log = .ok none log := by
    rcases hq : singleTable query select predicate (first :: rest) with _ | q
    · rfl
    · obtain ⟨rfl, rfl⟩ := List.cons.inj (singleTable_base hq)
      have hview := h q.base.key List.mem_cons_self
      have hsnapshot : q.trySnapshot sem (held q.base.key) args asOfMs = pure none := by
        simp [SingleTable.trySnapshot, hview]
      have hbase : q.tryBaseTable sem (held q.base.key) args asOfMs = pure none := by
        simp [SingleTable.tryBaseTable, hview]
      rw [trySingleTable, hsnapshot, hbase]
      rfl
  have hfirst : evalFirst sem held args asOfMs (singleTable query select predicate (first :: rest))
      first = evalFrom sem held args asOfMs first := by
    rcases hq : singleTable query select predicate (first :: rest) with _ | q
    · rfl
    · obtain ⟨rfl, rfl⟩ := List.cons.inj (singleTable_base hq)
      have hview := h q.base.key List.mem_cons_self
      have hindex : q.indexRows sem (held q.base.key) args = none := by
        rw [SingleTable.indexRows, hview]
        cases q.predicate <;> rfl
      simp only [evalFirst, hindex]
  rw [evalSelect, bind_of_ok hnone]
  dsimp only
  rw [hfirst]
  refine evalFrom_bind_reads h hrows hkey (fun ctxs => ?_) fun log h hkey => ?_
  · exact (evalProduct_preserves rest fun _ _ => extends_mem _ _).bind fun _ =>
      preserves_answered _
  · exact final_bind_of (evalProduct_reads rest [] log h hrows hkey) fun _ => preserves_answered _

theorem executeSelect_reads {query : Query X}
    (h : ∀ key ∈ reachedTables sem.otherHaving query, (held key).view = some view)
    (hrows : view.rows = []) {key : TableKey} (hkey : key ∈ reachedTables sem.otherHaving query) :
    Read.view key view ∈ final (executeSelect sem held args asOfMs query []) := by
  rw [executeSelect]
  rcases hbody : query.body with select | ⟨kind, all, left, right⟩
  case setop =>
    rw [reachedTables, hbody] at hkey
    cases hkey
  case select =>
    rcases hpredicate : selectEffectivePredicate sem.otherHaving select with e | predicate
    · simp only [reachedTables, hbody, hpredicate] at hkey
      cases hkey
    · rw [reachedTables_of_ok hbody hpredicate] at h hkey
      have hok : answered (selectEffectivePredicate sem.otherHaving select) ([] : List Read) =
          .ok predicate [] := by rw [hpredicate]; rfl
      dsimp only
      rw [bind_of_ok hok]
      exact evalSelect_reads _ [] h hrows hkey

end Views

section Coverage
variable {X ι : Type}

/-- A table of the FROM clause that no WITH clause in scope defines is listed. -/
theorem mem_collectTablesRef {names : List String} {key : TableKey} (table : TableRef X)
    (hkey : some key ∈ table.leaves) (hname : toAsciiLowercase key.table ∉ names) :
    key ∈ collectTablesRef names table := by
  rcases table with base | ⟨type, left, right, on⟩ | ⟨query, name⟩
  · obtain rfl : key = base.key := Option.some.inj (List.mem_singleton.mp hkey)
    have hbase : toAsciiLowercase base.table ∉ names := hname
    rw [collectTablesRef, if_neg hbase]
    exact List.mem_cons_self
  · rw [collectTablesRef]
    rcases List.mem_append.mp hkey with hkey | hkey
    · exact List.mem_append_left _ (mem_collectTablesRef left hkey hname)
    · exact List.mem_append_right _ (mem_collectTablesRef right hkey hname)
  · cases List.mem_singleton.mp hkey

theorem mem_collectTablesRefs {names : List String} {key : TableKey} (tables : List (TableRef X))
    (hkey : some key ∈ tables.flatMap TableRef.leaves)
    (hname : toAsciiLowercase key.table ∉ names) : key ∈ collectTablesRefs names tables := by
  induction tables with
  | nil => cases hkey
  | cons table tables ih =>
    rw [collectTablesRefs]
    rw [List.flatMap_cons] at hkey
    rcases List.mem_append.mp hkey with hkey | hkey
    · exact List.mem_append_left _ (mem_collectTablesRef table hkey hname)
    · exact List.mem_append_right _ (ih hkey)

theorem mem_collectTables_of_reached {otherHaving : List (SelectItem X) → X → Except String X}
    {query : Query X} {key : TableKey} (hkey : key ∈ reachedTables otherHaving query)
    (hname : toAsciiLowercase key.table ∉ cteNames query.ctes) : key ∈ collectTables query := by
  rcases query with ⟨ctes, body, orderBy, limit, lock⟩
  rw [collectTables, collectTablesQuery]
  refine List.mem_append_right _ ?_
  rcases body with select | ⟨kind, all, left, right⟩
  · rcases hpredicate : selectEffectivePredicate otherHaving select with e | predicate
    · simp only [reachedTables, hpredicate] at hkey
      cases hkey
    · rw [reachedTables_of_ok rfl hpredicate] at hkey
      rcases select with ⟨distinct, projection, tables, filter, groupBy, having⟩
      rcases tables with _ | tables
      · cases hkey
      · exact mem_collectTablesRefs tables (mem_upTo hkey) hname
  · cases hkey

variable [DecidableEq ι] (sem : SelectSemantics X ι) (query : Query X)

/-- The reads of a SELECT, whether it is answered or fails. -/
def readsOf (e : ReadEngine) (args : List Lit) (asOfMs : Option ℕ) : List Read :=
  final (executeSelect sem e.holding args asOfMs query [])

/-- What the list of the tables of a query promises. -/
structure Accounted : Prop where
  listed : ∀ (e : ReadEngine) (args : List Lit) (asOfMs : Option ℕ),
    ∀ read ∈ readsOf sem query e args asOfMs, read.key ∈ queryReferencedTables query
  authorized : ∀ allowed : TableKey → Prop, (∀ key ∈ queryReferencedTables query, allowed key) →
    ∀ (e : ReadEngine) (args : List Lit) (asOfMs : Option ℕ),
      ∀ read ∈ readsOf sem query e args asOfMs, allowed read.key
  sameData : ∀ (e e' : ReadEngine) (deps : List QueryDependency), Identifies e e' →
    dependenciesForQuery e query = .ok deps → dependenciesForQuery e' query = .ok deps →
      ∀ (args : List Lit) (asOfMs : Option ℕ),
        executeSelect sem e.holding args asOfMs query [] =
          executeSelect sem e'.holding args asOfMs query []

/-- Every read is accounted for just where no table that the FROM clause comes to before a
subquery has the name of a query of the WITH clause. -/
theorem references_account_iff : Accounted sem query ↔
    ∀ key ∈ reachedTables sem.otherHaving query,
      toAsciiLowercase key.table ∉ cteNames query.ctes := by
  constructor
  · intro h key hkey hshadowed
    have hread := h.listed (viewEngine (reachedTables sem.otherHaving query)) [] none
      (.view key { columns := [] }) (executeSelect_reads (fun key hkey => if_pos hkey) rfl hkey)
    exact collectTablesQuery_unshadowed query (mem_firsts.mp hread) hshadowed
  · intro h
    have hlisted : ∀ (e : ReadEngine) (args : List Lit) (asOfMs : Option ℕ),
        ∀ read ∈ readsOf sem query e args asOfMs, read.key ∈ queryReferencedTables query := by
      intro e args asOfMs
      refine @executeSelect_preserves X ι sem e.holding args asOfMs
        (fun log => ∀ read ∈ log, read.key ∈ queryReferencedTables query) _ query ?_ [] ?_
      · intro key hkey read hread log hlog read' hread'
        rcases List.mem_append.mp hread' with hread' | hread'
        · exact hlog read' hread'
        · rw [List.mem_singleton.mp hread', hread]
          exact mem_firsts.mpr (mem_collectTables_of_reached hkey (h key hkey))
      · exact fun read hread => absurd hread List.not_mem_nil
    refine ⟨hlisted, fun allowed hallowed e args asOfMs read hread =>
      hallowed read.key (hlisted e args asOfMs read hread), ?_⟩
    intro e e' deps hidentifies hdeps hdeps' args asOfMs
    refine executeSelect_congr fun key hkey => ?_
    obtain ⟨first, dep, hdep, hdep', hsame⟩ := dependenciesFrom_common _ hdeps hdeps'
      (mem_collectTables_of_reached hkey (h key hkey)) List.not_mem_nil
    exact hidentifies first dep hdep hdep' key (hsame.symm.trans (dependencyOf_table hdep).symm)

end Coverage

section Shadowing

def plainSemantics : SelectSemantics Empty Unit where
  toSemantics := numberSemantics
  text := sampleText
  ids := ⟨fun _ => none, fun _ _ _ => none⟩
  otherCols := Empty.elim
  otherHaving _ := Empty.elim
  vectorCandidates _ _ _ := none
  nextU64 _ _ _ := 0

def ordersKey : TableKey := ⟨"shop", "orders"⟩

def ordersEngine : ReadEngine where
  catalog := (∅ : Catalog).insert "shop" ((∅ : AList _).insert "orders" sampleTable.schema)
  tables key := if key = ordersKey then some sampleTable.data else none

def selectN (table : String) : QueryBody Empty :=
  .select { projection := [{ expr := .col "n" none }], tables := some [.base ⟨"shop", table, none⟩] }

/-- `WITH Orders AS (SELECT n FROM shop.items) SELECT n FROM shop.orders` -/
def shadowingQuery : Query Empty where
  ctes := [⟨"Orders", { body := selectN "items" }⟩]
  body := selectN "orders"

/-- The rows of `shop.orders` are read, and the list holds `shop.items` only. -/
theorem shadowed_table_unlisted :
    ordersKey ∈ (readsOf plainSemantics shadowingQuery ordersEngine [] none).map Read.key ∧
      queryReferencedTables shadowingQuery = [⟨"shop", "items"⟩] ∧
      ¬Accounted plainSemantics shadowingQuery := by
  have hread : ordersKey ∈
      (readsOf plainSemantics shadowingQuery ordersEngine [] none).map Read.key := by
    decide +kernel
  have hlist : queryReferencedTables shadowingQuery = [⟨"shop", "items"⟩] := by
    decide +kernel
  refine ⟨hread, hlist, fun h => ?_⟩
  obtain ⟨read, hmem, hkey⟩ := List.mem_map.mp hread
  have hlisted := h.listed ordersEngine [] none read hmem
  rw [hkey, hlist] at hlisted
  revert hlisted
  decide

end Shadowing

end SkeinDB.Queries
