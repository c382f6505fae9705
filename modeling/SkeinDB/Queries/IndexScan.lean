import SkeinDB.Queries.Select
import SkeinDB.Search.Gather
import SkeinDB.Tables.Postings

/-!
# Rows found by a secondary index

`skeindb/src/engine.rs`: the equalities of a conjunction are looked up in a secondary index, and
only the rows that the index lists are visited. The index knows the rows by the text of their
stored values, while the predicate compares with coercions and sees the defaults of columns.
-/
namespace SkeinDB.Queries
open SkeinDB.Tables SkeinDB.Search

section Filters
variable {X : Type} (name : String) (args : List Lit)

/-- The column that an expression refers to, where it is one of the single table. -/
def exprColumnRef : Expr X → Option String
  | .col col none => some col
  | .col col (some table) => if table = name then some col else none
  | _ => none

/-- A column that is compared with a constant, on either side. -/
def eqFilter (a b : Option (Expr X)) : List (String × Lit) :=
  match a.bind (exprColumnRef name), b.bind (exprConstValue args) with
  | some col, some value => [(col, value)]
  | _, _ =>
    match b.bind (exprColumnRef name), a.bind (exprConstValue args) with
    | some col, some value => [(col, value)]
    | _, _ => []

def filtersOp (op : String) (a b : Option (Expr X)) (items : List (Option (List (String × Lit)))) :
    Option (List (String × Lit)) :=
  match op with
  | "and" => (items.mapM id).map List.flatten
  | "or" => none
  | "not" => none
  | "eq" => some (eqFilter name args a b)
  | _ => some []

mutual

/-- The equalities of a conjunction, or nothing where there is a disjunction or a negation. -/
def collectIndexEqFilters : Expr X → Option (List (String × Lit))
  | .op op a b vargs _ _ _ => filtersOp name args op a b
      (connected (filtersOperand a) (filtersOperand b) (filtersOperands vargs))
  | _ => some []

def filtersOperand : Option (Expr X) → Option (Option (List (String × Lit)))
  | none => none
  | some e => some (collectIndexEqFilters e)

def filtersOperands : Option (List (Expr X)) → Option (List (Option (List (String × Lit))))
  | none => none
  | some es => some (filtersEach es)

def filtersEach : List (Expr X) → List (Option (List (String × Lit)))
  | [] => []
  | e :: es => collectIndexEqFilters e :: filtersEach es

end

theorem filtersOperand_eq (e : Option (Expr X)) :
    filtersOperand name args e = e.map (collectIndexEqFilters name args) := by
  cases e <;> rfl

theorem filtersEach_eq (es : List (Expr X)) :
    filtersEach name args es = es.map (collectIndexEqFilters name args) := by
  induction es with
  | nil => rfl
  | cons e es ih => rw [filtersEach, ih, List.map_cons]

theorem filtersOperands_eq (es : Option (List (Expr X))) :
    filtersOperands name args es = es.map (List.map (collectIndexEqFilters name args)) := by
  cases es with
  | none => rfl
  | some es => rw [filtersOperands, filtersEach_eq, Option.map_some]

theorem filters_op (op : String) (a b : Option (Expr X)) (vargs list : Option (List (Expr X)))
    (lo hi : Option (Expr X)) :
    collectIndexEqFilters name args (.op op a b vargs list lo hi) =
      filtersOp name args op a b
        ((connected a b vargs).map (collectIndexEqFilters name args)) := by
  rw [collectIndexEqFilters, filtersOperand_eq, filtersOperand_eq, filtersOperands_eq,
    connected_map]

end Filters

section Candidates
variable (text : LitsText)

/-- Of several equalities of one column the first counts. -/
def firstFilters (pairs : List (String × Lit)) (col : String) : Option Lit :=
  (pairs.find? fun pair => pair.1 == col).map (·.2)

/-- The rows that an index lists for the values of its columns. -/
def indexCandidates (filters : String → Option Lit) (index : SecondaryIndex) : Option (List ℕ) :=
  if index.columns = [] then none
  else (index.columns.mapM filters).map fun values => (index.keys (text values)).getD []

/-- An index with more columns, or with as many and fewer rows, takes the place of the best. -/
def pickBest (filters : String → Option Lit) (best : Option (ℕ × List ℕ))
    (index : SecondaryIndex) : Option (ℕ × List ℕ) :=
  match indexCandidates text filters index with
  | none => best
  | some candidates =>
    match best with
    | none => some (index.columns.length, candidates)
    | some (bestCols, bestRows) =>
      if bestCols < index.columns.length ∨
          (index.columns.length = bestCols ∧ candidates.length < bestRows.length) then
        some (index.columns.length, candidates)
      else best

/-- The indexes are made current and then taken in the order of the map that holds them. -/
def secondaryIndexCandidates (t : Table) (order : List String) (filters : String → Option Lit) :
    Option (List ℕ) :=
  let current := t.rebuildSecondaryIndexesIfStale text
  ((order.filterMap current.data.secondaryIndexes).foldl (pickBest text filters) none).map (·.2)

/-- What the engine knows of the table of a SELECT. -/
structure SelectSource where
  isView : Bool
  obliviousLevel : String
  table : Option Table

def indexPrefilterCandidates {X : Type} (src : SelectSource) (order : List String)
    (base : BaseTableRef) (predicate : Option (Expr X)) (args : List Lit) : Option (List ℕ) := do
  let predicate ← predicate
  if src.isView then none
  else if src.obliviousLevel ≠ "off" then none
  else
    let t ← src.table
    let pairs ← collectIndexEqFilters base.name args predicate
    if pairs = [] then none
    else secondaryIndexCandidates text t order (firstFilters pairs)

end Candidates

section Truth
variable {X : Type} {sem : Semantics X} {scope : Scope} {args : List Lit} {name : String}

/-- The predicate takes the column for equal to the value. -/
def Compares (fmt : Formats) (scope : Scope) (col : String) (value : Lit) : Prop :=
  ∃ table w, scope col table = .ok w ∧ w.isNull = false ∧ value.isNull = false ∧
    (cmpLit fmt w value = .eq ∨ cmpLit fmt value w = .eq)

theorem evalExpr_of_columnRef {e : Expr X} {col : String} (h : exprColumnRef name e = some col) :
    ∃ table, evalExpr sem scope args e = scope col table := by
  cases e with
  | col c table =>
    rcases table with _ | table
    · cases h
      exact ⟨none, rfl⟩
    · rw [exprColumnRef] at h
      split at h
      · cases h
        exact ⟨some table, rfl⟩
      · cases h
  | lit => cases h
  | param => cases h
  | op => cases h
  | other => cases h

/-- A comparison for equality that is true compares its operands as equal. -/
theorem evalComparison_true {fmt : Formats} {x y : Answer} {v : Lit}
    (h : evalComparison fmt "eq" (· == .eq) (some x) (some y) = .ok v)
    (hv : predicateTruth v = some true) :
    ∃ a b, x = .ok a ∧ y = .ok b ∧ a.isNull = false ∧ b.isNull = false ∧ cmpLit fmt a b = .eq := by
  rcases x with e | a
  · cases h
  rcases y with e | b
  · cases h
  have hok : (if a.isNull || b.isNull then Lit.null else .bool (cmpLit fmt a b == .eq)) = v :=
    Except.ok.inj h
  refine ⟨a, b, rfl, rfl, ?_⟩
  rw [← hok] at hv
  split at hv
  · cases hv
  · rename_i hnull
    rw [Bool.or_eq_true, not_or] at hnull
    exact ⟨Bool.eq_false_iff.mpr hnull.1, Bool.eq_false_iff.mpr hnull.2,
      eq_of_beq (Option.some.inj hv)⟩

theorem eqFilter_holds {a b : Option (Expr X)} {v : Lit}
    (h : evalComparison sem.fmt "eq" (· == .eq) (a.map (evalExpr sem scope args))
      (b.map (evalExpr sem scope args)) = .ok v) (hv : predicateTruth v = some true)
    {pair : String × Lit} (hpair : pair ∈ eqFilter name args a b) :
    Compares sem.fmt scope pair.1 pair.2 := by
  rcases a with _ | ea
  · cases h
  rcases b with _ | eb
  · cases h
  obtain ⟨x, y, hx, hy, hxnull, hynull, hcmp⟩ := evalComparison_true h hv
  rw [eqFilter] at hpair
  split at hpair
  · rename_i col value hcol hvalue
    obtain rfl := List.mem_singleton.mp hpair
    obtain ⟨table, htable⟩ := @evalExpr_of_columnRef X sem scope args name ea col hcol
    have hval : evalExpr sem scope args eb = .ok value := evalExpr_const hvalue
    rw [hval] at hy
    cases hy
    exact ⟨table, x, htable.symm.trans hx, hxnull, hynull, .inl hcmp⟩
  · split at hpair
    · rename_i col value hcol hvalue
      obtain rfl := List.mem_singleton.mp hpair
      obtain ⟨table, htable⟩ := @evalExpr_of_columnRef X sem scope args name eb col hcol
      have hval : evalExpr sem scope args ea = .ok value := evalExpr_const hvalue
      rw [hval] at hx
      cases hx
      exact ⟨table, y, htable.symm.trans hy, hynull, hxnull, .inr hcmp⟩
    · cases hpair

theorem eq_map_of_mapM_id {α : Type} (xs : List (Option α)) {ys : List α}
    (h : xs.mapM id = some ys) : xs = ys.map some := by
  induction xs generalizing ys with
  | nil =>
    cases h
    rfl
  | cons x xs ih =>
    rw [List.mapM_cons] at h
    obtain ⟨y, hy, h⟩ := Option.bind_eq_some_iff.mp h
    obtain ⟨zs, hzs, h⟩ := Option.bind_eq_some_iff.mp h
    cases h
    rw [List.map_cons, ← ih hzs]
    exact congrArg (· :: xs) hy

/-- Where a predicate is true, so is each equality that is collected from it. -/
theorem filters_hold (e : Expr X) {pairs : List (String × Lit)} {v : Lit}
    (hpairs : collectIndexEqFilters name args e = some pairs)
    (heval : evalExpr sem scope args e = .ok v) (hv : predicateTruth v = some true) :
    ∀ pair ∈ pairs, Compares sem.fmt scope pair.1 pair.2 := by
  induction e using Expr.induction generalizing pairs v with
  | hcol => cases hpairs; exact fun _ h => absurd h List.not_mem_nil
  | hlit => cases hpairs; exact fun _ h => absurd h List.not_mem_nil
  | hparam => cases hpairs; exact fun _ h => absurd h List.not_mem_nil
  | hother => cases hpairs; exact fun _ h => absurd h List.not_mem_nil
  | hop op a b vargs list lo hi iha ihb ihargs ihlist =>
    rw [filters_op] at hpairs
    rw [evalExpr, evalOperand_eq, evalOperand_eq, evalOperands_eq] at heval
    unfold filtersOp at hpairs
    split at hpairs
    · obtain ⟨lists, hlists, rfl⟩ := Option.map_eq_some_iff.mp hpairs
      have htrue := evalUntil_true _ heval hv
      rw [connected_map] at htrue
      intro pair hpair
      obtain ⟨filters, hfilters, hpair⟩ := List.mem_flatten.mp hpair
      have hsome := List.mem_map_of_mem (f := some) hfilters
      rw [← eq_map_of_mapM_id _ hlists] at hsome
      obtain ⟨e, he, hfilters⟩ := List.mem_map.mp hsome
      obtain ⟨w, hw, htruth⟩ := htrue _ (List.mem_map_of_mem he)
      rcases mem_connected he with h | h | ⟨es, h, hes⟩
      · exact iha e h hfilters hw htruth pair hpair
      · exact ihb e h hfilters hw htruth pair hpair
      · exact ihargs es h e hes hfilters hw htruth pair hpair
    · cases hpairs
    · cases hpairs
    · cases hpairs
      exact fun pair hpair => eqFilter_holds heval hv hpair
    · cases hpairs
      exact fun _ h => absurd h List.not_mem_nil

end Truth

section Choice
variable {text : LitsText} {filters : String → Option Lit}

/-- What is picked is what one of the indexes lists. -/
theorem foldl_pickBest_mem (indexes : List SecondaryIndex) {best : Option (ℕ × List ℕ)}
    {picked : ℕ × List ℕ} (h : indexes.foldl (pickBest text filters) best = some picked) :
    best = some picked ∨ ∃ index ∈ indexes, indexCandidates text filters index = some picked.2 := by
  induction indexes generalizing best with
  | nil => exact .inl h
  | cons index indexes ih =>
    rcases ih h with hbest | ⟨index', hmem, hindex⟩
    · unfold pickBest at hbest
      split at hbest
      · exact .inl hbest
      · rename_i candidates hcandidates
        split at hbest
        · cases hbest
          exact .inr ⟨index, List.mem_cons_self, hcandidates⟩
        · split at hbest
          · cases hbest
            exact .inr ⟨index, List.mem_cons_self, hcandidates⟩
          · exact .inl hbest
    · exact .inr ⟨index', List.mem_cons_of_mem _ hmem, hindex⟩

theorem secondaryIndexCandidates_cases {t : Table} {order : List String} {candidates : List ℕ}
    (h : secondaryIndexCandidates text t order filters = some candidates) :
    ∃ name index values,
      (t.rebuildSecondaryIndexesIfStale text).data.secondaryIndexes name = some index ∧
      index.columns ≠ [] ∧ index.columns.mapM filters = some values ∧
      candidates = index.listed (text values) := by
  obtain ⟨picked, hpicked, rfl⟩ := Option.map_eq_some_iff.mp h
  rcases foldl_pickBest_mem _ hpicked with hnone | ⟨index, hmem, hindex⟩
  · cases hnone
  · obtain ⟨name, -, hname⟩ := List.mem_filterMap.mp hmem
    unfold indexCandidates at hindex
    split at hindex
    · cases hindex
    · rename_i hcolumns
      obtain ⟨values, hvalues, hlisted⟩ := Option.map_eq_some_iff.mp hindex
      exact ⟨name, index, values, hname, hcolumns, hvalues, hlisted.symm⟩

end Choice

section AccessPath
variable {X : Type} (sem : Semantics X) (text : LitsText) (t : Table) (args : List Lit)
  (asOfMs : Option ℕ) (q : TableSelect X)

/-- The SELECT by a scan of the table, in memory or from its segment. -/
def scanSelect : Except String (List (List Lit)) := do
  let entries ← t.data.scanRows
  selectRows sem t.schema args asOfMs q text entries

/-- The rows at the candidates, in their order. -/
def candidateRows (candidates : List ℕ) : List RowEntry := candidates.filterMap (t.data.rows[·]?)

/-- A visible row whose column the predicate takes for equal to the value of a filter is live and
stores that very value. -/
def FilterExact (entry : RowEntry) (col : String) (value : Lit) : Prop :=
  Compares sem.fmt (rowScopeOf t.schema q entry) col value →
    entry.deleted = false ∧ entry.row col = some value

/-- The order in which the rows are visited does not show: the answer is not cut and rows of one
text are the same, or the current indexes list their rows in ascending order. -/
def OrderHidden : Prop :=
  (q.limit = none ∧ (q.distinct = true → ∀ e ∈ t.data.rows, ∀ e' ∈ t.data.rows, ∀ a b,
    selectEntry sem t.schema args asOfMs q e = .ok (some a) →
      selectEntry sem t.schema args asOfMs q e' = .ok (some b) → text a.2 = text b.2 →
        a.2 = b.2)) ∨
    ∀ name index, t.data.secondaryIndexes name = some index →
      index.builtVersion = t.schema.tableVersion → ∀ key, (index.listed key).Pairwise (· < ·)

/-- What makes an index as good as a scan. -/
structure IndexScanExact : Prop where
  scanned : t.data.scanRows = .ok t.data.rows
  indexes : t.IndexesExact text
  evaluates : ∀ entry ∈ t.data.rows, rowVisibleAt asOfMs entry = true → ∀ pred ∈ q.predicate,
    ∃ b, evalPredicate sem (rowScopeOf t.schema q entry) args pred = .ok b
  filters : ∀ pred ∈ q.predicate, ∀ pairs ∈ collectIndexEqFilters q.base.name args pred,
    ∀ entry ∈ t.data.rows, rowVisibleAt asOfMs entry = true → ∀ col value,
      firstFilters pairs col = some value → FilterExact sem t q entry col value
  hidden : OrderHidden sem text t args asOfMs q

variable {sem text t args asOfMs q}

theorem selectRows_eq (entries : List RowEntry) :
    selectRows sem t.schema args asOfMs q text entries =
      (gather (selectEntry sem t.schema args asOfMs q) entries).map
        (finishRows sem.fmt text q) := by
  rw [selectRows, gather]
  rcases entries.mapM (selectEntry sem t.schema args asOfMs q) with e | items <;> rfl

theorem selectEntry_none {entry : RowEntry}
    (h : keepsEntry sem t.schema args asOfMs q entry = .ok false) :
    selectEntry sem t.schema args asOfMs q entry = .ok none := by
  rw [selectEntry, h]
  rfl

theorem rowValues_of_filters {filters : String → Option Lit} {row : RowObject}
    (h : ∀ col value, filters col = some value → row col = some value) (columns : List String)
    {values : List Lit} (hvalues : columns.mapM filters = some values) :
    rowValues columns row = some values := by
  induction columns generalizing values with
  | nil => exact hvalues
  | cons col columns ih =>
    rw [List.mapM_cons] at hvalues
    obtain ⟨value, hvalue, hvalues⟩ := Option.bind_eq_some_iff.mp hvalues
    obtain ⟨rest, hrest, hvalues⟩ := Option.bind_eq_some_iff.mp hvalues
    have hrow : columns.mapM row = some rest := ih hrest
    rw [rowValues, List.mapM_cons, h col value hvalue, hrow]
    exact hvalues

theorem mem_of_firstFilters {pairs : List (String × Lit)} {col : String} {value : Lit}
    (h : firstFilters pairs col = some value) : (col, value) ∈ pairs := by
  obtain ⟨pair, hfind, rfl⟩ := Option.map_eq_some_iff.mp h
  have hkey : (pair.1 == col) = true := by simpa using List.find?_some hfind
  obtain rfl : pair.1 = col := eq_of_beq hkey
  exact List.mem_of_find?_eq_some hfind

/-- A visible row on which the predicate is true is listed by every index that the filters can
use. -/
theorem IndexScanExact.stores (h : IndexScanExact sem text t args asOfMs q) {pred : Expr X}
    (hpred : q.predicate = some pred) {pairs : List (String × Lit)}
    (hpairs : collectIndexEqFilters q.base.name args pred = some pairs) {entry : RowEntry}
    (hentry : entry ∈ t.data.rows) (hvisible : rowVisibleAt asOfMs entry = true)
    (htrue : evalPredicate sem (rowScopeOf t.schema q entry) args pred = .ok true)
    {columns : List String} (hcolumns : columns ≠ []) {values : List Lit}
    (hvalues : columns.mapM (firstFilters pairs) = some values) :
    storesKey text columns (text values) entry = true := by
  have hexact : ∀ col value, firstFilters pairs col = some value →
      entry.deleted = false ∧ entry.row col = some value := by
    intro col value hfirst
    obtain ⟨v, heval, hv⟩ := evalExpr_of_true _ _ _ htrue
    exact h.filters pred hpred pairs hpairs entry hentry hvisible col value hfirst
      (filters_hold pred hpairs heval hv (col, value) (mem_of_firstFilters hfirst))
  have hrow := rowValues_of_filters (fun col value hfirst => (hexact col value hfirst).2) columns
    hvalues
  obtain ⟨col, rest, rfl⟩ := List.exists_cons_of_ne_nil hcolumns
  rw [List.mapM_cons] at hvalues
  obtain ⟨value, hvalue, -⟩ := Option.bind_eq_some_iff.mp hvalues
  rw [storesKey, hrow, (hexact col value hvalue).1]
  simp

theorem IndexScanExact.skips (h : IndexScanExact sem text t args asOfMs q) {pred : Expr X}
    (hpred : q.predicate = some pred) {pairs : List (String × Lit)}
    (hpairs : collectIndexEqFilters q.base.name args pred = some pairs) {index : SecondaryIndex}
    (hindex : index.Exact text t.data.rows) (hcolumns : index.columns ≠ []) {values : List Lit}
    (hvalues : index.columns.mapM (firstFilters pairs) = some values) (i : ℕ)
    (hi : i < t.data.rows.length) (hnot : i ∉ index.listed (text values)) :
    selectEntry sem t.schema args asOfMs q (t.data.rows.get ⟨i, hi⟩) = .ok none := by
  have hmem : t.data.rows.get ⟨i, hi⟩ ∈ t.data.rows := List.get_mem _ _
  apply selectEntry_none
  rw [keepsEntry]
  split
  · rename_i hvisible
    rw [hpred]
    obtain ⟨b, hb⟩ := h.evaluates _ hmem hvisible pred hpred
    rcases b with _ | _
    · exact hb
    · refine absurd (hindex.mem.mpr ⟨t.data.rows.get ⟨i, hi⟩, ?_, ?_⟩) hnot
      · exact List.getElem?_eq_getElem hi
      · exact h.stores hpred hpairs hmem hvisible hb hcolumns hvalues
  · rfl

/-- Rows that were gathered in another order make the same answer where the order is hidden. -/
theorem finish_same (hlimit : q.limit = none)
    (hsame : q.distinct = true → ∀ e ∈ t.data.rows, ∀ e' ∈ t.data.rows, ∀ a b,
      selectEntry sem t.schema args asOfMs q e = .ok (some a) →
        selectEntry sem t.schema args asOfMs q e' = .ok (some b) → text a.2 = text b.2 → a.2 = b.2)
    {found : Except String (List (List Lit × List Lit))}
    (h : SameOutcome found (gather (selectEntry sem t.schema args asOfMs q) t.data.rows)) :
    SameOutcome (found.map (finishRows sem.fmt text q))
      ((gather (selectEntry sem t.schema args asOfMs q) t.data.rows).map
        (finishRows sem.fmt text q)) := by
  rcases h with ⟨as, bs, rfl, hbs, hperm⟩ | ⟨e, e', rfl, he'⟩
  · rw [hbs]
    refine .inl ⟨_, _, rfl, rfl, finishRows_perm hperm hlimit fun hdistinct a ha b hb => ?_⟩
    obtain ⟨x, hx, ha⟩ := mem_of_gather _ hbs (hperm.mem_iff.mp ha)
    obtain ⟨y, hy, hb⟩ := mem_of_gather _ hbs (hperm.mem_iff.mp hb)
    exact hsame hdistinct x hx y hy a b ha hb
  · rw [he']
    exact .inr ⟨e, e', rfl, rfl⟩

end AccessPath

theorem prefilter_cases {X : Type} {text : LitsText} {src : SelectSource} {t : Table}
    (htable : src.table = some t) {order : List String} {base : BaseTableRef}
    {predicate : Option (Expr X)} {args : List Lit} {candidates : List ℕ}
    (h : indexPrefilterCandidates text src order base predicate args = some candidates) :
    ∃ pred pairs, predicate = some pred ∧ collectIndexEqFilters base.name args pred = some pairs ∧
      secondaryIndexCandidates text t order (firstFilters pairs) = some candidates := by
  obtain ⟨pred, rfl, hsource⟩ := Option.bind_eq_some_iff.mp h
  split at hsource
  · cases hsource
  · split at hsource
    · cases hsource
    · rw [htable] at hsource
      obtain ⟨_, ⟨⟩, hfilters⟩ := Option.bind_eq_some_iff.mp hsource
      obtain ⟨pairs, hpairs, hpick⟩ := Option.bind_eq_some_iff.mp hfilters
      split at hpick
      · cases hpick
      · exact ⟨pred, pairs, rfl, hpairs, hpick⟩

/-- Where the rows in memory are those of a scan, every index that is current lists its rows exactly,
the predicate evaluates on every visible row, and a row whose columns it takes for equal to the
constants is live and stores them, the SELECT returns through the index what it returns through a
scan. -/
theorem index_access_path {X : Type} (sem : Semantics X) (text : LitsText) (src : SelectSource)
    (t : Table) (htable : src.table = some t) (order : List String) (args : List Lit)
    (asOfMs : Option ℕ) (q : TableSelect X) (candidates : List ℕ)
    (hcandidates : indexPrefilterCandidates text src order q.base q.predicate args =
      some candidates) (h : IndexScanExact sem text t args asOfMs q) :
    SameOutcome (selectRows sem t.schema args asOfMs q text (candidateRows t candidates))
      (scanSelect sem text t args asOfMs q) := by
  obtain ⟨pred, pairs, hpred, hpairs, hpick⟩ := prefilter_cases htable hcandidates
  obtain ⟨name, index, values, hname, hcolumns, hvalues, rfl⟩ :=
    secondaryIndexCandidates_cases hpick
  have hindex := h.indexes.rebuild hname
  have hskips := h.skips hpred hpairs hindex hcolumns hvalues
  have hlt : ∀ i ∈ index.listed (text values), i < t.data.rows.length := by
    intro i hi
    obtain ⟨entry, hentry, -⟩ := hindex.mem.mp hi
    exact (List.getElem?_eq_some_iff.mp hentry).1
  have hscan : scanSelect sem text t args asOfMs q =
      selectRows sem t.schema args asOfMs q text t.data.rows := by
    rw [scanSelect, h.scanned]
    rfl
  rw [hscan, selectRows_eq, selectRows_eq, candidateRows]
  rcases h.hidden with ⟨hlimit, hsame⟩ | hascending
  · refine finish_same hlimit hsame (gather_positions_same hindex.nodup hlt hskips)
  · have hsorted : (index.listed (text values)).Pairwise (· < ·) := by
      rcases Table.rebuild_cases hname with ⟨hold, hversion⟩ | ⟨columns, included, rfl⟩
      · exact hascending name index hold hversion _
      · exact pairwise_listed_build
    rw [gather_positions_eq hsorted hlt hskips]
    exact .refl _

/-- The text of unsigned and signed numbers. -/
def sampleText : LitsText := fun values =>
  "[" ++ String.intercalate "," (values.map fun value =>
    match value with
    | .u64 v => "\x7b\"t\":\"u64\",\"v\":" ++ toString v ++ "\x7d"
    | .i64 v => "\x7b\"t\":\"i64\",\"v\":" ++ toString v ++ "\x7d"
    | _ => "") ++ "]"

def sampleEntry : RowEntry where
  row column := if column = "id" then some (.u64 7) else if column = "n" then some (.u64 1) else none
  version := 1
  schemaVersion := 1
  deleted := false
  commitTsMs := 5

/-- One row, with an index on the column that is not the key. -/
def sampleTable : Table :=
  ({ schema := { columns := [⟨"id", "u64", false, false⟩, ⟨"n", "u64", false, false⟩]
                 primaryKey := ["id"] }
     data := TableData.empty.pushRow (sampleText [.u64 7]) sampleEntry } : Table).registerSecondaryIndex
    sampleText ["n"] []

def sampleSource : SelectSource where
  isView := false
  obliviousLevel := "off"
  table := some sampleTable

def numberSemantics : Semantics Empty where
  fmt := { parseF64 := fun _ => none, showF64 := fun _ => "", showJson := fun _ => "" }
  otherOp op _ _ := .error ("unsupported op: " ++ op)
  other x := x.elim

/-- `SELECT id FROM shop.orders WHERE n = value`. -/
def selectWhereN (value : Lit) : TableSelect Empty where
  base := ⟨"shop", "orders", none⟩
  columns := ["id", "n"]
  projection := [.col "id" none]
  predicate := some (.op "eq" (some (.col "n" none)) (some (.lit value)) none none none none)

theorem sampleTable_exact : sampleTable.IndexesExact sampleText := by
  intro name index hindex _
  rcases Table.register_cases hindex with hold | rfl
  · cases hold
  · exact exact_build

theorem sampleScan_exact :
    IndexScanExact numberSemantics sampleText sampleTable [] none (selectWhereN (.u64 1)) where
  scanned := rfl
  indexes := sampleTable_exact
  evaluates entry hentry _ pred hpred := by
    obtain rfl := List.mem_singleton.mp hentry
    cases hpred
    exact ⟨true, by decide +kernel⟩
  filters pred hpred pairs hpairs entry hentry _ col value hfirst _ := by
    obtain rfl := List.mem_singleton.mp hentry
    cases hpred
    cases hpairs
    have hmem := mem_of_firstFilters hfirst
    cases List.mem_singleton.mp hmem
    exact ⟨rfl, rfl⟩
  hidden := .inl ⟨rfl, fun hdistinct => by cases hdistinct⟩

theorem index_access_path_sample :
    SameOutcome (selectRows numberSemantics sampleTable.schema [] none (selectWhereN (.u64 1))
        sampleText (candidateRows sampleTable [0]))
      (scanSelect numberSemantics sampleText sampleTable [] none (selectWhereN (.u64 1))) :=
  index_access_path numberSemantics sampleText sampleSource sampleTable rfl
    [secondaryIndexKey ["n"] []] [] none (selectWhereN (.u64 1)) [0] (by decide +kernel)
    sampleScan_exact

/-- The row is found by the signed number that it stores as unsigned only through a scan. -/
theorem index_access_path_misses :
    indexPrefilterCandidates sampleText sampleSource [secondaryIndexKey ["n"] []]
        (selectWhereN (.i64 1)).base (selectWhereN (.i64 1)).predicate [] = some [] ∧
      ¬SameOutcome (selectRows numberSemantics sampleTable.schema [] none (selectWhereN (.i64 1))
          sampleText (candidateRows sampleTable []))
        (scanSelect numberSemantics sampleText sampleTable [] none (selectWhereN (.i64 1))) := by
  have hscan : (scanSelect numberSemantics sampleText sampleTable [] none
      (selectWhereN (.i64 1))).map List.length = .ok 1 := by
    decide +kernel
  have hindex : (selectRows numberSemantics sampleTable.schema [] none (selectWhereN (.i64 1))
      sampleText (candidateRows sampleTable [])).map List.length = .ok 0 := by
    decide +kernel
  refine ⟨by decide +kernel, ?_⟩
  rintro (⟨as, bs, has, hbs, hperm⟩ | ⟨e, e', he, -⟩)
  · rw [hbs] at hscan
    rw [has] at hindex
    have hlen := hperm.length_eq
    rw [Except.ok.inj hindex, Except.ok.inj hscan] at hlen
    cases hlen
  · rw [he] at hindex
    cases hindex

end SkeinDB.Queries
