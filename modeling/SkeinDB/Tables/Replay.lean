import SkeinDB.Tables.Resync

/-!
# The round trip of an export

`skeindb/src/engine.rs`: the export of an engine, executed on a fresh one, gives the databases and
tables back where nothing of a table is lost on the way: its defaults and indexes are not
exported, its counters are not read, and its rows pass through `data_insert`.
-/
namespace SkeinDB.Tables
open SkeinDB.Transition

section Operations
variable {ext : Externals} {json : RowObject → Option RowObject} {now : ℕ → ℕ} {s s' : Engine}
  {key : TableKey} {t : Table} {origin : TableSchema} {counters : String → Option ℕ}
  {rows new : List RowObject}

theorem replay_cons {op : SnapshotOp} {ops : List SnapshotOp} :
    replay ext json now (op :: ops) = (do applyOp ext json now op; replay ext json now ops) := by
  rw [replay, List.forM_cons, replay]

theorem replay_append {ops ops' : List SnapshotOp} : replay ext json now (ops ++ ops') =
    (do replay ext json now ops; replay ext json now ops') := by
  rw [replay, List.forM_append, replay, replay]

/-- The table of the key, in the catalog and in memory. -/
def Holds (s : Engine) (key : TableKey) (t : Table) : Prop :=
  s.schemaOf key = some t.schema ∧ s.tables key = some t.data

theorem Puts.holds (h : Puts key t s s') : Holds s' key t :=
  ⟨h.schema, by rw [h.tables, Function.update_self]⟩

theorem Holds.puts (h : Holds s key t) : Puts key t s s where
  databases db := by
    by_cases hdb : db = key.db
    · rw [hdb, hasDatabase_of_schema (getSchema_of_some h.1), Bool.true_or]
    · rw [beq_false_of_ne hdb, Bool.or_false]
  schema := h.1
  schemas _ _ := rfl
  tables := by rw [← h.2, Function.update_eq_self]
  refused _ := rfl

/-- What is left of the rows after JSON is the rows. -/
theorem eq_of_mapM_json (hjson : ∀ row row', json row = some row' → row' = row)
    (rows : List RowObject) {rows' : List RowObject} (h : rows.mapM json = some rows') :
    rows' = rows ∧ ∀ row ∈ rows, (json row).isSome := by
  induction rows generalizing rows' with
  | nil =>
    cases h
    exact ⟨rfl, fun _ hrow => absurd hrow List.not_mem_nil⟩
  | cons row rows ih =>
    rw [List.mapM_cons] at h
    obtain ⟨first, hfirst, h⟩ := Option.bind_eq_some_iff.mp h
    obtain ⟨rest, hrest, h⟩ := Option.bind_eq_some_iff.mp h
    cases h
    obtain ⟨rfl, hall⟩ := ih hrest
    obtain rfl := hjson row first hfirst
    refine ⟨rfl, fun row' hrow' => ?_⟩
    rcases List.mem_cons.mp hrow' with rfl | hrow'
    · rw [hfirst]
      rfl
    · exact hall row' hrow'

theorem mapM_json_of_all (hjson : ∀ row row', json row = some row' → row' = row)
    (rows : List RowObject) (h : ∀ row ∈ rows, (json row).isSome) : rows.mapM json = some rows := by
  induction rows with
  | nil => rfl
  | cons row rows ih =>
    obtain ⟨first, hfirst⟩ := Option.isSome_iff_exists.mp (h row List.mem_cons_self)
    obtain rfl := hjson row first hfirst
    rw [List.mapM_cons, hfirst, ih fun row hrow => h row (List.mem_cons_of_mem _ hrow)]
    rfl

/-- A table that was loaded with `rows`, next to the ones it was given. -/
structure Reloaded (text : LitsText) (json : RowObject → Option RowObject) (origin : TableSchema)
    (counters : String → Option ℕ) (old given : List RowObject) (t : Table) : Prop where
  loaded : ∃ counters' out, Loaded text origin counters' (old ++ out) t ∧
    out.length = given.length ∧
    (out = given → counters' = counters ∧ ∀ row ∈ given, Whole origin row)
  carried : ∀ row ∈ given, (json row).isSome

theorem insertOp_ok (hjson : ∀ row row', json row = some row' → row' = row) (h : Replica s)
    (hholds : Holds s key t) (hloaded : Loaded ext.text origin counters rows t)
    (hok : applyOp ext json now (.insert key new) s = .ok () s') :
    ∃ t', Puts key t' s s' ∧ Replica s' ∧ Reloaded ext.text json origin counters rows new t' := by
  have hschema := getSchema_of_some hholds.1
  rw [applyOp] at hok
  rcases hmap : new.mapM json with _ | new'
  · rw [hmap] at hok
    cases hok
  · obtain ⟨rfl, hcarried⟩ := eq_of_mapM_json hjson new hmap
    rw [hmap] at hok
    dsimp only at hok
    rcases hrows : insertRows (stampOf ext now s key) key new' none t with ⟨done, t'⟩ | ⟨e, t'⟩
    · have hinsert := @insertRows_loaded (stampOf ext now s key) key origin counters rows t t' new'
        done hloaded hrows
      obtain ⟨counters', out, hloaded', hout⟩ := hinsert
      obtain ⟨r, s₁, hdata, hputs, hreplica⟩ := dataInsert_ok h hschema hholds.2 hrows
        hloaded'.plain
      rw [bind_of_ok hdata] at hok
      cases hok
      exact ⟨t', hputs, hreplica, ⟨counters', out, hloaded', hout⟩, hcarried⟩
    · obtain ⟨s₁, hdata⟩ := dataInsert_error h hschema hholds.2 hrows
      rw [bind_of_error hdata] at hok
      cases hok

theorem insertOp_runs (hjson : ∀ row row', json row = some row' → row' = row) (h : Replica s)
    (hholds : Holds s key t) (hloaded : Loaded ext.text origin counters rows t)
    (hnew : Insertable ext.text origin (rows ++ new)) (hcarried : ∀ row ∈ new, (json row).isSome) :
    ∃ s' t', applyOp ext json now (.insert key new) s = .ok () s' ∧ Puts key t' s s' ∧
      Replica s' ∧ Loaded ext.text origin counters (rows ++ new) t' := by
  have hschema := getSchema_of_some hholds.1
  obtain ⟨done, t', hrows, hloaded'⟩ := @insertRows_insertable (stampOf ext now s key) key origin
    counters rows t new hloaded hnew
  obtain ⟨r, s₁, hdata, hputs, hreplica⟩ := dataInsert_ok h hschema hholds.2 hrows hloaded'.plain
  refine ⟨s₁, t', ?_, hputs, hreplica, hloaded'⟩
  rw [applyOp, mapM_json_of_all hjson new hcarried]
  dsimp only
  rw [bind_of_ok hdata]
  rfl

theorem insertOps_ok (hjson : ∀ row row', json row = some row' → row' = row)
    (batches : List (List RowObject)) (h : Replica s) (hholds : Holds s key t)
    (hloaded : Loaded ext.text origin counters rows t)
    (hok : replay ext json now (batches.map (.insert key)) s = .ok () s') :
    ∃ t', Puts key t' s s' ∧ Replica s' ∧
      Reloaded ext.text json origin counters rows batches.flatten t' := by
  induction batches generalizing s t counters rows with
  | nil =>
    cases hok
    refine ⟨t, hholds.puts, h, ⟨counters, [], ?_, rfl, fun _ => ⟨rfl, ?_⟩⟩, ?_⟩
    · rwa [List.append_nil]
    · exact fun _ hrow => absurd hrow List.not_mem_nil
    · exact fun _ hrow => absurd hrow List.not_mem_nil
  | cons batch batches ih =>
    rw [List.map_cons, replay_cons] at hok
    obtain ⟨_, s₁, hfirst, hok⟩ := bind_ok.mp hok
    obtain ⟨t₁, hputs₁, hreplica₁, ⟨counters₁, out₁, hloaded₁, hlength₁, hsame₁⟩, hcarried₁⟩ :=
      insertOp_ok hjson h hholds hloaded hfirst
    obtain ⟨t', hputs, hreplica, ⟨counters', out, hloaded', hlength, hsame⟩, hcarried⟩ :=
      ih hreplica₁ hputs₁.holds hloaded₁ hok
    refine ⟨t', hputs₁.trans hputs, hreplica, ⟨counters', out₁ ++ out, ?_, ?_, fun hout => ?_⟩, ?_⟩
    · rwa [← List.append_assoc]
    · rw [List.flatten_cons, List.length_append, List.length_append, hlength₁, hlength]
    · rw [List.flatten_cons] at hout ⊢
      obtain ⟨hout₁, hout'⟩ := List.append_inj hout hlength₁
      obtain ⟨hcounters₁, hwhole₁⟩ := hsame₁ hout₁
      obtain ⟨hcounters, hwhole⟩ := hsame hout'
      refine ⟨hcounters.trans hcounters₁, fun row hrow => ?_⟩
      rcases List.mem_append.mp hrow with hrow | hrow
      · exact hwhole₁ row hrow
      · exact hwhole row hrow
    · rw [List.flatten_cons]
      intro row hrow
      rcases List.mem_append.mp hrow with hrow | hrow
      · exact hcarried₁ row hrow
      · exact hcarried row hrow

theorem insertOps_run (hjson : ∀ row row', json row = some row' → row' = row)
    (batches : List (List RowObject)) (h : Replica s) (hholds : Holds s key t)
    (hloaded : Loaded ext.text origin counters rows t)
    (hnew : Insertable ext.text origin (rows ++ batches.flatten))
    (hcarried : ∀ row ∈ batches.flatten, (json row).isSome) :
    ∃ s' t', replay ext json now (batches.map (.insert key)) s = .ok () s' ∧ Puts key t' s s' ∧
      Replica s' ∧ Loaded ext.text origin counters (rows ++ batches.flatten) t' := by
  induction batches generalizing s t rows with
  | nil =>
    refine ⟨s, t, rfl, hholds.puts, h, ?_⟩
    rwa [List.flatten_nil, List.append_nil]
  | cons batch batches ih =>
    rw [List.flatten_cons] at hnew hcarried
    have hfirst : Insertable ext.text origin (rows ++ batch) := by
      rw [← List.append_assoc] at hnew
      exact hnew.left
    obtain ⟨s₁, t₁, hrun, hputs, hreplica, hloaded₁⟩ := @insertOp_runs ext json now s key t origin
      counters rows batch hjson h hholds hloaded hfirst fun row hrow =>
        hcarried row (List.mem_append_left _ hrow)
    rw [← List.append_assoc] at hnew
    obtain ⟨s', t', hrest, hputs', hreplica', hloaded'⟩ := ih hreplica hputs.holds hloaded₁ hnew
      fun row hrow => hcarried row (List.mem_append_right _ hrow)
    refine ⟨s', t', ?_, hputs.trans hputs', hreplica', ?_⟩
    · rw [List.map_cons, replay_cons, bind_of_ok hrun]
      exact hrest
    · rwa [List.flatten_cons, ← List.append_assoc]

/-- The definition with which the replay creates a table. -/
def definitionOf (schema : TableSchema) : TableDefinition where
  columns := schema.columns
  primaryKey := schema.primaryKey

theorem loaded_created (text : LitsText) (origin : TableSchema) :
    Loaded text origin (definitionOf origin).schema.autoIncNext []
      ⟨(definitionOf origin).schema, .empty⟩ :=
  loaded_empty text origin (definitionOf origin) rfl rfl rfl rfl

/-- A table that was created and loaded with the rows of an export. -/
abbrev Recreated (text : LitsText) (json : RowObject → Option RowObject) (origin : TableSchema)
    (rows : List RowObject) (t : Table) : Prop :=
  Reloaded text json origin (definitionOf origin).schema.autoIncNext [] rows t

theorem tableOps_ok (hjson : ∀ row row', json row = some row' → row' = row) (h : Replica s)
    (habsent : s.schemaOf key = none)
    (hok : replay ext json now (tableOps key origin rows) s = .ok () s') :
    ∃ t', Puts key t' s s' ∧ Replica s' ∧ Recreated ext.text json origin rows t' := by
  rw [tableOps, replay_cons] at hok
  obtain ⟨s₁, hcreate, hputs₁, hreplica₁⟩ := createTable_puts ext h (definitionOf origin) rfl habsent
  have hfirst : applyOp ext json now
      (.createTable key origin.columns origin.primaryKey origin.autoIncNext) s = .ok () s₁ := hcreate
  rw [bind_of_ok hfirst] at hok
  obtain ⟨t', hputs, hreplica, hreloaded⟩ := insertOps_ok hjson _ hreplica₁ hputs₁.holds
    (loaded_created ext.text origin) hok
  rw [flatten_insertBatches] at hreloaded
  exact ⟨t', hputs₁.trans hputs, hreplica, hreloaded⟩

theorem tableOps_run (hjson : ∀ row row', json row = some row' → row' = row) (h : Replica s)
    (habsent : s.schemaOf key = none) (hrows : Insertable ext.text origin rows)
    (hcarried : ∀ row ∈ rows, (json row).isSome) :
    ∃ s' t', replay ext json now (tableOps key origin rows) s = .ok () s' ∧ Puts key t' s s' ∧
      Replica s' ∧ Loaded ext.text origin (definitionOf origin).schema.autoIncNext rows t' := by
  obtain ⟨s₁, hcreate, hputs₁, hreplica₁⟩ := createTable_puts ext h (definitionOf origin) rfl habsent
  have hfirst : applyOp ext json now
      (.createTable key origin.columns origin.primaryKey origin.autoIncNext) s = .ok () s₁ := hcreate
  obtain ⟨s', t', hrest, hputs, hreplica, hloaded⟩ := @insertOps_run ext json now s₁ key _ origin _
    [] hjson (insertBatches [] rows) hreplica₁ hputs₁.holds (loaded_created ext.text origin)
    (by rw [flatten_insertBatches]; exact hrows) (by rw [flatten_insertBatches]; exact hcarried)
  rw [flatten_insertBatches] at hloaded
  refine ⟨s', t', ?_, hputs₁.trans hputs, hreplica, hloaded⟩
  rw [tableOps, replay_cons, bind_of_ok hfirst]
  exact hrest

end Operations

section Items

/-- What an export holds: databases, and tables with their live rows. -/
inductive Item
  | database (db : String)
  | table (key : TableKey) (schema : TableSchema) (rows : List RowObject)

def Item.ops : Item → List SnapshotOp
  | .database db => [.createDatabase db]
  | .table key schema rows => tableOps key schema rows

def Item.key : Item → Option TableKey
  | .database _ => none
  | .table key _ _ => some key

def Item.db : Item → String
  | .database db => db
  | .table key _ _ => key.db

variable {ext : Externals} {json : RowObject → Option RowObject} {now : ℕ → ℕ} {s s' : Engine}
  {Good : TableSchema → List RowObject → Table → Prop}

/-- The databases and tables of the items have been added, each table as it should be. -/
structure Adds (Good : TableSchema → List RowObject → Table → Prop) (items : List Item)
    (s s' : Engine) : Prop where
  databases : ∀ db, s'.hasDatabase db = (s.hasDatabase db || items.any (·.db == db))
  others : ∀ key, (∀ item ∈ items, item.key ≠ some key) →
    s'.schemaOf key = s.schemaOf key ∧ s'.tables key = s.tables key
  tables : ∀ key schema rows, Item.table key schema rows ∈ items →
    ∃ t, Holds s' key t ∧ Good schema rows t

/-- The operations of a table add it as it should be. -/
def AddsTable (ext : Externals) (json : RowObject → Option RowObject) (now : ℕ → ℕ)
    (Good : TableSchema → List RowObject → Table → Prop) (schema : TableSchema)
    (rows : List RowObject) : Prop :=
  ∀ (s s' : Engine) (key : TableKey), Replica s → s.schemaOf key = none →
    replay ext json now (tableOps key schema rows) s = .ok () s' →
      ∃ t, Puts key t s s' ∧ Replica s' ∧ Good schema rows t

theorem replay_database (s : Engine) (db : String) :
    ∃ s', replay ext json now (Item.database db).ops s = .ok () s' ∧ AddsDatabase db s s' ∧
      s'.dirtyTables = s.dirtyTables := by
  obtain ⟨s', hcreate, hadds, hdirty⟩ := createDatabase_adds s db
  refine ⟨s', ?_, hadds, hdirty⟩
  rw [Item.ops, replay_cons]
  exact bind_of_ok hcreate

theorem Adds.database {items : List Item} {s₁ : Engine} {db : String}
    (hadds : AddsDatabase db s s₁) (hrest : Adds Good items s₁ s') :
    Adds Good (.database db :: items) s s' where
  databases db' := by
    rw [hrest.databases, hadds.databases, List.any_cons, Bool.or_assoc]
    exact congrArg (fun b => s.hasDatabase db' || (b || _)) Bool.beq_comm
  others key hkey := by
    obtain ⟨hschema, htable⟩ := hrest.others key fun item hitem =>
      hkey item (List.mem_cons_of_mem _ hitem)
    exact ⟨hschema.trans (hadds.schemas key), htable.trans (congrFun hadds.tables key)⟩
  tables key schema rows hmem := by
    refine hrest.tables key schema rows ((List.mem_cons.mp hmem).resolve_left fun hsame => ?_)
    cases hsame

theorem Adds.table {items : List Item} {s₁ : Engine} {key : TableKey} {schema : TableSchema}
    {rows : List RowObject} {t : Table} (hother : ∀ item ∈ items, item.key ≠ some key)
    (hputs : Puts key t s s₁) (hgood : Good schema rows t) (hrest : Adds Good items s₁ s') :
    Adds Good (.table key schema rows :: items) s s' where
  databases db' := by
    rw [hrest.databases, hputs.databases, List.any_cons, Bool.or_assoc]
    exact congrArg (fun b => s.hasDatabase db' || (b || _)) Bool.beq_comm
  others key' hkey' := by
    have hne : key' ≠ key := fun hsame => hkey' _ List.mem_cons_self (hsame ▸ rfl)
    obtain ⟨hschema, htable⟩ := hrest.others key' fun item hitem =>
      hkey' item (List.mem_cons_of_mem _ hitem)
    refine ⟨hschema.trans (hputs.schemas key' hne), htable.trans ?_⟩
    rw [hputs.tables, Function.update_of_ne hne]
  tables key' schema' rows' hmem := by
    rcases List.mem_cons.mp hmem with hsame | hmem
    · cases hsame
      obtain ⟨hschema, htable⟩ := hrest.others key hother
      exact ⟨t, ⟨hschema.trans hputs.holds.1, htable.trans hputs.holds.2⟩, hgood⟩
    · exact hrest.tables key' schema' rows' hmem

theorem items_ok (items : List Item) (h : Replica s) (hdistinct : (items.filterMap Item.key).Nodup)
    (habsent : ∀ item ∈ items, ∀ key ∈ item.key, s.schemaOf key = none)
    (hgood : ∀ key schema rows, Item.table key schema rows ∈ items →
      AddsTable ext json now Good schema rows)
    (hok : replay ext json now (items.flatMap Item.ops) s = .ok () s') : Adds Good items s s' := by
  induction items generalizing s with
  | nil =>
    cases hok
    exact ⟨fun db => (Bool.or_false _).symm, fun _ _ => ⟨rfl, rfl⟩,
      fun _ _ _ hmem => absurd hmem List.not_mem_nil⟩
  | cons item items ih =>
    rw [List.flatMap_cons, replay_append] at hok
    obtain ⟨_, s₁, hfirst, hlater⟩ := bind_ok.mp hok
    have hgood' := fun key schema rows hmem =>
      hgood key schema rows (List.mem_cons_of_mem _ hmem)
    have habsent' := fun item' (hitem : item' ∈ items) => habsent item' (List.mem_cons_of_mem _ hitem)
    rcases item with db | ⟨key, schema, rows⟩
    · obtain ⟨s₂, hop, hadds, hdirty⟩ := @replay_database ext json now s db
      cases hfirst.symm.trans hop
      refine (ih (h.addsDatabase hadds hdirty) hdistinct ?_ hgood' hlater).database hadds
      exact fun item hitem key hkey => (hadds.schemas key).trans (habsent' item hitem key hkey)
    · obtain ⟨t, hputs, hreplica, ht⟩ := hgood key schema rows List.mem_cons_self s s₁ key h
        (habsent _ List.mem_cons_self key rfl) hfirst
      have hdistinct : (key :: items.filterMap Item.key).Nodup := hdistinct
      rw [List.nodup_cons] at hdistinct
      have hother : ∀ item ∈ items, item.key ≠ some key := fun item hitem hkey =>
        hdistinct.1 (List.mem_filterMap.mpr ⟨item, hitem, hkey⟩)
      refine (ih hreplica hdistinct.2 ?_ hgood' hlater).table hother hputs ht
      intro item hitem key' hkey'
      have hne : key' ≠ key := fun hsame => hother item hitem (hsame ▸ hkey')
      exact (hputs.schemas key' hne).trans (habsent' item hitem key' hkey')

theorem items_run (hjson : ∀ row row', json row = some row' → row' = row) (items : List Item)
    (h : Replica s) (hdistinct : (items.filterMap Item.key).Nodup)
    (habsent : ∀ item ∈ items, ∀ key ∈ item.key, s.schemaOf key = none)
    (hrows : ∀ key schema rows, Item.table key schema rows ∈ items →
      Insertable ext.text schema rows ∧ ∀ row ∈ rows, (json row).isSome) :
    ∃ s', replay ext json now (items.flatMap Item.ops) s = .ok () s' := by
  induction items generalizing s with
  | nil => exact ⟨s, rfl⟩
  | cons item items ih =>
    rw [List.flatMap_cons, replay_append]
    have hrows' := fun key schema rows hmem =>
      hrows key schema rows (List.mem_cons_of_mem _ hmem)
    have habsent' := fun item' (hitem : item' ∈ items) => habsent item' (List.mem_cons_of_mem _ hitem)
    rcases item with db | ⟨key, schema, rows⟩
    · obtain ⟨s₁, hop, hadds, hdirty⟩ := @replay_database ext json now s db
      rw [bind_of_ok hop]
      refine ih (h.addsDatabase hadds hdirty) hdistinct ?_ hrows'
      exact fun item hitem key hkey => (hadds.schemas key).trans (habsent' item hitem key hkey)
    · obtain ⟨hinsertable, hcarried⟩ := hrows key schema rows List.mem_cons_self
      obtain ⟨s₁, t, hop, hputs, hreplica, -⟩ := @tableOps_run ext json now s key schema rows hjson
        h (habsent _ List.mem_cons_self key rfl) hinsertable hcarried
      have hdistinct : (key :: items.filterMap Item.key).Nodup := hdistinct
      rw [List.nodup_cons] at hdistinct
      have hfirst : replay ext json now (Item.table key schema rows).ops s = .ok () s₁ := hop
      rw [bind_of_ok hfirst]
      refine ih hreplica hdistinct.2 (fun item hitem key' hkey' => ?_) hrows'
      have hne : key' ≠ key := fun hsame =>
        hdistinct.1 (List.mem_filterMap.mpr ⟨item, hitem, hsame ▸ hkey'⟩)
      exact (hputs.schemas key' hne).trans (habsent' item hitem key' hkey')

theorem addsTable_recreated (hjson : ∀ row row', json row = some row' → row' = row)
    (schema : TableSchema) (rows : List RowObject) :
    AddsTable ext json now (Recreated ext.text json) schema rows :=
  fun _ _ _ h habsent hok => tableOps_ok hjson h habsent hok

/-- Rows that go in as they are make the table again. -/
theorem addsTable_loaded (hjson : ∀ row row', json row = some row' → row' = row)
    {schema : TableSchema} {rows : List RowObject} (hrows : Insertable ext.text schema rows)
    (hcarried : ∀ row ∈ rows, (json row).isSome) :
    AddsTable ext json now (fun schema rows t =>
      Loaded ext.text schema (definitionOf schema).schema.autoIncNext rows t) schema rows := by
  intro s s' key h habsent hok
  obtain ⟨s₁, t, hop, hputs, hreplica, hloaded⟩ := @tableOps_run ext json now s key schema rows
    hjson h habsent hrows hcarried
  cases hok.symm.trans hop
  exact ⟨t, hputs, hreplica, hloaded⟩

end Items

section MapM
variable {ε α β γ : Type} {f : α → Except ε β}

theorem mapM_ok_cons {x : α} {xs : List α} {ys : List β} : (x :: xs).mapM f = .ok ys ↔
    ∃ y rest, f x = .ok y ∧ xs.mapM f = .ok rest ∧ ys = y :: rest := by
  rw [List.mapM_cons]
  rcases hx : f x with e | y
  · exact ⟨fun h => (by cases h), fun ⟨_, _, h, _⟩ => (by cases h)⟩
  · rcases hxs : xs.mapM f with e | rest
    · exact ⟨fun h => (by cases h), fun ⟨_, _, _, h, _⟩ => (by cases h)⟩
    · constructor
      · intro h
        cases h
        exact ⟨y, rest, rfl, rfl, rfl⟩
      · rintro ⟨_, _, hy, hrest, rfl⟩
        cases hy
        cases hrest
        rfl

theorem mapM_map_ok (g : β → γ) (xs : List α) :
    xs.mapM (fun x => (f x).map g) = (xs.mapM f).map (List.map g) := by
  induction xs with
  | nil => rfl
  | cons x xs ih =>
    rw [List.mapM_cons, List.mapM_cons, ih]
    rcases f x with e | y
    · rfl
    · rcases xs.mapM f with e | rest <;> rfl

theorem exists_mapM (xs : List α) (h : ∀ x ∈ xs, ∃ y, f x = .ok y) : ∃ ys, xs.mapM f = .ok ys := by
  induction xs with
  | nil => exact ⟨[], rfl⟩
  | cons x xs ih =>
    obtain ⟨y, hy⟩ := h x List.mem_cons_self
    obtain ⟨ys, hys⟩ := ih fun x hx => h x (List.mem_cons_of_mem _ hx)
    exact ⟨y :: ys, mapM_ok_cons.mpr ⟨y, ys, hy, hys, rfl⟩⟩

theorem mem_mapM (xs : List α) {ys : List β} (h : xs.mapM f = .ok ys) {y : β} :
    y ∈ ys ↔ ∃ x ∈ xs, f x = .ok y := by
  induction xs generalizing ys with
  | nil =>
    cases h
    simp
  | cons x xs ih =>
    obtain ⟨first, rest, hfirst, hrest, rfl⟩ := mapM_ok_cons.mp h
    rw [List.mem_cons, ih hrest]
    constructor
    · rintro (rfl | ⟨x', hx', hy⟩)
      · exact ⟨x, List.mem_cons_self, hfirst⟩
      · exact ⟨x', List.mem_cons_of_mem _ hx', hy⟩
    · rintro ⟨x', hx', hy⟩
      rcases List.mem_cons.mp hx' with rfl | hx'
      · exact .inl (Except.ok.inj (hy.symm.trans hfirst))
      · exact .inr ⟨x', hx', hy⟩

theorem exists_of_mapM (xs : List α) {ys : List β} (h : xs.mapM f = .ok ys) {x : α} (hx : x ∈ xs) :
    ∃ y, f x = .ok y := by
  induction xs generalizing ys with
  | nil => cases hx
  | cons first xs ih =>
    obtain ⟨y, rest, hy, hrest, rfl⟩ := mapM_ok_cons.mp h
    rcases List.mem_cons.mp hx with rfl | hx
    · exact ⟨y, hy⟩
    · exact ih hrest hx

theorem flatMap_mapM {g : β → List γ} {g' : α → List γ} (xs : List α) {ys : List β}
    (h : xs.mapM f = .ok ys) (hg : ∀ x y, f x = .ok y → g y = g' x) :
    ys.flatMap g = xs.flatMap g' := by
  induction xs generalizing ys with
  | nil =>
    cases h
    rfl
  | cons x xs ih =>
    obtain ⟨y, rest, hy, hrest, rfl⟩ := mapM_ok_cons.mp h
    rw [List.flatMap_cons, List.flatMap_cons, ih hrest, hg x y hy]

theorem filterMap_mapM {g : β → Option γ} {g' : α → γ} (xs : List α) {ys : List β}
    (h : xs.mapM f = .ok ys) (hg : ∀ x y, f x = .ok y → g y = some (g' x)) :
    ys.filterMap g = xs.map g' := by
  induction xs generalizing ys with
  | nil =>
    cases h
    rfl
  | cons x xs ih =>
    obtain ⟨y, rest, hy, hrest, rfl⟩ := mapM_ok_cons.mp h
    rw [List.filterMap_cons_some (hg x y hy), List.map_cons, ih hrest]

end MapM

section Contents
variable {s : Engine} {key : TableKey} {db : String}

def itemOf (s : Engine) (key : TableKey) : Except String Item := do
  let t ← s.getTable key
  let entries ← t.data.scanRows
  .ok (.table key t.schema (liveRows entries))

def tableNames (s : Engine) (db : String) : List String :=
  (s.catalog.lookup db).elim [] fun tables => sortedNames tables.keys

def databaseItems (s : Engine) (db : String) : Except String (List Item) := do
  let tables ← (tableNames s db).mapM fun table => itemOf s ⟨db, table⟩
  .ok (.database db :: tables)

def exportItems (s : Engine) : Except String (List Item) := do
  let items ← (sortedNames s.catalog.keys).mapM (databaseItems s)
  .ok items.flatten

theorem exportTable_eq (s : Engine) (key : TableKey) :
    exportTable s key = (itemOf s key).map Item.ops := by
  rw [exportTable, itemOf]
  rcases s.getTable key with e | t
  · rfl
  · change (t.data.scanRows >>= _) = Except.map _ (t.data.scanRows >>= _)
    rcases t.data.scanRows with e | entries <;> rfl

theorem exportDatabase_eq (s : Engine) (db : String) :
    exportDatabase s db = (databaseItems s db).map (List.flatMap Item.ops) := by
  have htables : (fun table => exportTable s ⟨db, table⟩) =
      fun table => (itemOf s ⟨db, table⟩).map Item.ops := by
    funext table
    exact exportTable_eq s ⟨db, table⟩
  rw [exportDatabase, databaseItems, htables, mapM_map_ok]
  change Except.bind (Except.map _ ((tableNames s db).mapM _)) _ = _
  rcases (tableNames s db).mapM fun table => itemOf s ⟨db, table⟩ with e | items
  · rfl
  · exact congrArg Except.ok (congrArg (List.cons _) List.flatMap_def.symm)

/-- The operations of an export are those of its databases and tables. -/
theorem snapshotExport_eq (s : Engine) :
    snapshotExport s = (exportItems s).map (List.flatMap Item.ops) := by
  have hdatabases : exportDatabase s = fun db => (databaseItems s db).map (List.flatMap Item.ops) :=
    funext fun db => exportDatabase_eq s db
  rw [snapshotExport, exportItems, hdatabases, mapM_map_ok]
  rcases (sortedNames s.catalog.keys).mapM (databaseItems s) with e | items
  · rfl
  · refine congrArg Except.ok ?_
    rw [List.flatMap_def, List.map_flatten, List.flatten_flatten, List.map_map]
    rfl

theorem mem_sortedNames {names : List String} {name : String} :
    name ∈ sortedNames names ↔ name ∈ names := (List.mergeSort_perm _ _).mem_iff

theorem mem_databases : db ∈ sortedNames s.catalog.keys ↔ s.hasDatabase db = true := by
  rw [mem_sortedNames, Engine.hasDatabase, AList.lookup_isSome, AList.mem_keys]

theorem mem_tableNames {table : String} :
    table ∈ tableNames s db ↔ (s.schemaOf ⟨db, table⟩).isSome := by
  unfold tableNames Engine.schemaOf Engine.getSchema
  rcases s.catalog.lookup db with _ | tables
  · exact ⟨fun h => (by cases h), fun h => (by cases h)⟩
  · dsimp only [Option.elim]
    rw [mem_sortedNames, ← AList.mem_keys, ← AList.lookup_isSome]
    rcases tables.lookup table with _ | schema <;> exact Iff.rfl

theorem itemOf_ok {item : Item} : itemOf s key = .ok item ↔ ∃ schema data entries,
    s.getSchema key = .ok schema ∧ s.tables key = some data ∧ data.scanRows = .ok entries ∧
      item = .table key schema (liveRows entries) := by
  unfold itemOf Engine.getTable
  rcases hschema : s.getSchema key with e | schema
  · exact ⟨fun h => (by cases h), fun ⟨_, _, _, h, _⟩ => (by cases h)⟩
  · rcases hdata : s.tables key with _ | data
    · exact ⟨fun h => (by cases h), fun ⟨_, _, _, _, h, _⟩ => (by cases h)⟩
    · rcases hscan : data.scanRows with e | entries
      · refine ⟨fun h => ?_, fun ⟨_, _, _, _, h, h', _⟩ => ?_⟩
        · change (data.scanRows >>= _) = _ at h
          rw [hscan] at h
          cases h
        · cases h
          cases hscan.symm.trans h'
      · constructor
        · intro h
          change (data.scanRows >>= _) = _ at h
          rw [hscan] at h
          cases h
          exact ⟨schema, data, entries, rfl, rfl, hscan, rfl⟩
        · rintro ⟨_, _, _, h, h', h'', rfl⟩
          cases h
          cases h'
          cases hscan.symm.trans h''
          change (data.scanRows >>= _) = _
          rw [hscan]
          rfl

theorem databaseItems_ok {items : List Item} (h : databaseItems s db = .ok items) :
    ∃ tables, (tableNames s db).mapM (fun table => itemOf s ⟨db, table⟩) = .ok tables ∧
      items = .database db :: tables := by
  rw [databaseItems] at h
  rcases hmap : (tableNames s db).mapM fun table => itemOf s ⟨db, table⟩ with e | tables
  · rw [hmap] at h
    cases h
  · rw [hmap] at h
    cases h
    exact ⟨tables, rfl, rfl⟩

theorem exportItems_ok {items : List Item} (h : exportItems s = .ok items) :
    ∃ lists, (sortedNames s.catalog.keys).mapM (databaseItems s) = .ok lists ∧
      items = lists.flatten := by
  rw [exportItems] at h
  rcases hmap : (sortedNames s.catalog.keys).mapM (databaseItems s) with e | lists
  · rw [hmap] at h
    cases h
  · rw [hmap] at h
    cases h
    exact ⟨lists, rfl, rfl⟩

theorem mem_exportItems {items : List Item} (h : exportItems s = .ok items) {item : Item} :
    item ∈ items ↔ (∃ db, s.hasDatabase db = true ∧ item = .database db) ∨
      ∃ key, itemOf s key = .ok item := by
  obtain ⟨lists, hlists, rfl⟩ := exportItems_ok h
  rw [List.mem_flatten]
  constructor
  · rintro ⟨list, hlist, hitem⟩
    obtain ⟨db, hdb, hdatabase⟩ := (mem_mapM _ hlists).mp hlist
    obtain ⟨tables, htables, rfl⟩ := databaseItems_ok hdatabase
    rcases List.mem_cons.mp hitem with rfl | hitem
    · exact .inl ⟨db, mem_databases.mp hdb, rfl⟩
    · obtain ⟨table, -, hok⟩ := (mem_mapM _ htables).mp hitem
      exact .inr ⟨⟨db, table⟩, hok⟩
  · rintro (⟨db, hdb, rfl⟩ | ⟨key, hok⟩)
    · obtain ⟨list, hlist⟩ := exists_of_mapM _ hlists (mem_databases.mpr hdb)
      obtain ⟨tables, htables, rfl⟩ := databaseItems_ok hlist
      exact ⟨_, (mem_mapM _ hlists).mpr ⟨db, mem_databases.mpr hdb, hlist⟩, List.mem_cons_self⟩
    · obtain ⟨schema, data, entries, hschema, -⟩ := itemOf_ok.mp hok
      have hdb : s.hasDatabase key.db = true := hasDatabase_of_schema hschema
      obtain ⟨list, hlist⟩ := exists_of_mapM _ hlists (mem_databases.mpr hdb)
      obtain ⟨tables, htables, rfl⟩ := databaseItems_ok hlist
      refine ⟨_, (mem_mapM _ hlists).mpr ⟨key.db, mem_databases.mpr hdb, hlist⟩,
        List.mem_cons_of_mem _ ((mem_mapM _ htables).mpr ⟨key.table, mem_tableNames.mpr ?_, hok⟩)⟩
      rw [schemaOf_of_ok hschema]
      rfl

/-- An export lists every table once. -/
theorem nodup_exportItems {items : List Item} (h : exportItems s = .ok items) :
    (items.filterMap Item.key).Nodup := by
  obtain ⟨lists, hlists, rfl⟩ := exportItems_ok h
  have hkeys : lists.flatten.filterMap Item.key = (sortedNames s.catalog.keys).flatMap fun db =>
      (tableNames s db).map fun table => (⟨db, table⟩ : TableKey) := by
    rw [List.filterMap_flatten, ← List.flatMap_def]
    refine flatMap_mapM _ hlists fun db list hlist => ?_
    obtain ⟨tables, htables, rfl⟩ := databaseItems_ok hlist
    change tables.filterMap Item.key = _
    refine filterMap_mapM _ htables fun table item hitem => ?_
    obtain ⟨schema, data, entries, -, -, -, rfl⟩ := itemOf_ok.mp hitem
    rfl
  rw [hkeys, List.nodup_flatMap]
  constructor
  · intro db _
    refine List.Nodup.map (fun a b hab => congrArg TableKey.table hab) ?_
    unfold tableNames
    rcases s.catalog.lookup db with _ | tables
    · exact List.nodup_nil
    · exact (List.mergeSort_perm _ _).nodup_iff.mpr tables.keys_nodup
  · have hnodup : (sortedNames s.catalog.keys).Nodup :=
      (List.mergeSort_perm _ _).nodup_iff.mpr s.catalog.keys_nodup
    refine hnodup.imp fun hne => ?_
    intro key hkey hkey'
    obtain ⟨table, -, rfl⟩ := List.mem_map.mp hkey
    obtain ⟨table', -, hsame⟩ := List.mem_map.mp hkey'
    exact hne (congrArg TableKey.db hsame).symm

end Contents

end SkeinDB.Tables
