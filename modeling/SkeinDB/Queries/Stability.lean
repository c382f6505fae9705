import SkeinDB.Queries.History
import SkeinDB.Queries.References

/-!
# Stable reads

`skeindb/src/engine.rs`: what a query with `as_of` answers at two moments after that time.
-/
namespace SkeinDB.Queries
open SkeinDB.Tables SkeinDB.Transition

section Stability
variable {X ι : Type} [DecidableEq ι] {ext : Externals} {sem : SelectSemantics X ι}
  {s : Engine} {calls calls' : List TableCall} {ts : ℕ} {query : Query X} {args : List Lit}
  {e e' : ReadEngine} {key : TableKey} {es es' : List RowEdit}

/-- The tables that the FROM clause names. -/
def Query.tableKeys (query : Query X) : List TableKey :=
  query.refs.filterMap fun
    | .base table => some table.key
    | _ => none

/-- Two moments after a time: the engine after calls, and after further ones that are made later
than the time. -/
structure LaterMoments (ext : Externals) (s : Engine) (calls calls' : List TableCall) (ts : ℕ)
    (query : Query X) (e e' : ReadEngine) : Prop where
  first : e.toEngine = afterCalls ext calls s
  second : e'.toEngine = afterCalls ext calls' e.toEngine
  views : e'.views = e.views
  policies : e'.obliviousPolicies = e.obliviousPolicies
  flags : e'.schemaFlags = e.schemaFlags
  byColumn : ∀ c ∈ calls ++ calls', c.write.ByColumn
  clocks : Clocks (calls ++ calls')
  later : ∀ c ∈ calls', ∀ n, ts < c.now n
  tables : ∀ key ∈ query.tableKeys, ∃ t, s.tableOf ext.text key = some t ∧
    ∀ entry ∈ t.data.rows, entry.commitTsMs ≤ ts

/-- The query reads tables in memory from end to end: it has no JOIN, its names are no views, and
it takes no candidates from an index. -/
structure ReadsTables (sem : SelectSemantics X ι) (args : List Lit) (query : Query X)
    (e : ReadEngine) : Prop where
  noJoin : ∀ ref ∈ query.refs, ref.Plain
  noView : ∀ key ∈ query.tableKeys, e.views key = none
  inMemory : ∀ key ∈ query.tableKeys, ∀ data, e.tables key = some data →
    data.residency = .resident
  scans : query.Scans sem e.holding args

theorem History.append (h : History ext key s calls es e.toEngine)
    (h' : History ext key e.toEngine calls' es' e'.toEngine) :
    History ext key s (calls ++ calls') (es ++ es') e'.toEngine := by
  generalize e.toEngine = s₁ at h h'
  induction h with
  | nil => exact h'
  | own hkey before after edits makes _ ih =>
    rw [List.append_assoc]
    exact .own hkey before after edits makes (ih h')
  | other hkey _ ih => exact .other hkey (ih h')

theorem getTable_of_resident {text : LitsText} {t : Table} (ht : s.tableOf text key = some t)
    (hres : ∀ data, s.tables key = some data → data.residency = .resident) :
    s.getTable key = .ok t := by
  obtain ⟨schema, hschema, h⟩ := Option.bind_eq_some_iff.mp ht
  obtain ⟨data, hdata, h⟩ := Option.bind_eq_some_iff.mp h
  rw [materialize_resident (hres data hdata)] at h
  cases h
  rcases hs : s.getSchema key with e | schema' <;> rw [hs] at hschema <;> cases hschema
  simp only [Engine.getTable, hs, hdata, bind, Except.bind]

theorem mem_tableKeys {table : BaseTableRef} (h : .base table ∈ query.refs) :
    table.key ∈ query.tableKeys :=
  List.mem_filterMap.mpr ⟨.base table, h, rfl⟩

theorem LaterMoments.clocks_second (h : LaterMoments ext s calls calls' ts query e e') :
    Clocks calls' :=
  ⟨fun c hc => h.clocks.within c (List.mem_append_right _ hc),
    (List.pairwise_append.mp h.clocks.between).2.1⟩

theorem LaterMoments.times (h : LaterMoments ext s calls calls' ts query e e')
    (hes' : History ext key e.toEngine calls' es' e'.toEngine) : ∀ edit ∈ es', ts < edit.time := by
  intro edit hedit
  obtain ⟨c, hc, n, htime⟩ := (hes'.times h.clocks_second).2 edit hedit
  rw [htime]
  exact h.later c hc n

theorem ReadsTables.alike {R : Holding → Holding → Prop} {held : TableKey → Holding}
    (hreads : ReadsTables sem args query e)
    (hR : ∀ key ∈ query.tableKeys, R (e.holding key) (held key)) :
    ∀ ref ∈ query.refs, ref.Alike R e.holding held := by
  intro ref href
  cases ref with
  | base table => exact hR table.key (mem_tableKeys href)
  | join _ _ _ _ => exact (hreads.noJoin _ href).elim
  | subquery _ _ => trivial

end Stability

section Reading

def allOrders : Query Empty where
  body := .select { projection := [{ expr := .col "id" none }],
                    tables := some [.base ⟨"shop", "orders", none⟩] }

end Reading

end SkeinDB.Queries
