import SkeinDB.Tables.Replay

/-!
# What an export keeps

`skeindb/src/engine.rs`: when the engine that replayed an export has the tables of the first one,
down to the counters, and answers the statements that follow as the first one does.
-/
namespace SkeinDB.Tables
open SkeinDB.Transition

section Copy
variable {text : LitsText} {t t' : Table}

/-- The positions of the live rows, one for every row that a copy without the others has. -/
theorem exists_positions (entries : List RowEntry) : ∃ ρ : ℕ → ℕ, StrictMono ρ ∧
    (∀ n, ρ ((liveRows entries).length + n) = entries.length + n) ∧
    (∀ i, entries[ρ i]?.map RowEntry.content = (liveRows entries)[i]?.map fun row => (row, false)) ∧
    ∀ j ∉ Set.range ρ, ∀ entry ∈ entries[j]?, entry.deleted = true := by
  obtain ⟨ρ, hmono, hbeyond, hitems, hpassed⟩ :=
    exists_filter_positions (fun entry : RowEntry => !entry.deleted) entries
  refine ⟨ρ, hmono, fun n => ?_, fun i => ?_, fun j hj entry hentry => ?_⟩
  · rw [liveRows, List.length_map, hbeyond]
  · rw [hitems, liveRows, List.getElem?_map, Option.map_map]
    refine Option.map_congr fun entry hentry => Prod.ext rfl ?_
    have hlive := (List.mem_filter.mp (List.mem_of_getElem? hentry)).2
    simpa [RowEntry.content] using hlive
  · simpa using hpassed j hj entry hentry

/-- The index of the primary key finds the live rows, each under its key. -/
def Keyed (text : LitsText) (t : Table) : Prop :=
  ∀ key idx, t.liveAt key = some idx ↔ ∃ entry, t.data.rows[idx]? = some entry ∧
    entry.deleted = false ∧ rowKey text t.schema entry.row = some key

/-- No key is found twice. -/
theorem index_unique {α β : Type} {f : α → Option β} (xs : List α) (h : (xs.filterMap f).Nodup)
    {i j : ℕ} {b : β} (hi : xs[i]?.bind f = some b) (hj : xs[j]?.bind f = some b) : i = j := by
  obtain ⟨x, hx, hfx⟩ := Option.bind_eq_some_iff.mp hi
  obtain ⟨y, hy, hfy⟩ := Option.bind_eq_some_iff.mp hj
  obtain ⟨hlt, rfl⟩ := List.getElem?_eq_some_iff.mp hx
  obtain ⟨hlt', rfl⟩ := List.getElem?_eq_some_iff.mp hy
  have hpairs := List.pairwise_iff_getElem.mp (List.pairwise_filterMap.mp h)
  rcases Nat.lt_trichotomy i j with hij | hij | hij
  · exact absurd rfl (hpairs i j hlt hlt' hij b hfx b hfy)
  · exact hij
  · exact absurd rfl (hpairs j i hlt' hlt hij b hfy b hfx)

theorem Loaded.keyedTable {origin : TableSchema} {counters : String → Option ℕ}
    {rows : List RowObject} (h : Loaded text origin counters rows t) : Keyed text t := by
  have hlive : ∀ key, t.liveAt key = t.data.pkIndex key := by
    intro key
    rw [Table.liveAt]
    rcases hkey : t.data.pkIndex key with _ | idx
    · rfl
    · have hidx := t.data.pk_lt key idx hkey
      have hlive := h.live _ (List.getElem_mem hidx)
      simp [Option.filter, List.getElem?_eq_getElem hidx, hlive]
  have hrow : ∀ idx : ℕ, rows[idx]? = t.data.rows[idx]?.map RowEntry.row := by
    intro idx
    rw [← h.stored, List.getElem?_map]
  intro key idx
  rw [hlive]
  constructor
  · intro hidx
    have hfound := h.found key idx hidx
    rw [hrow] at hfound
    rcases hentry : t.data.rows[idx]? with _ | entry
    · rw [hentry] at hfound
      cases hfound
    · rw [hentry] at hfound
      exact ⟨entry, rfl, h.live entry (List.mem_of_getElem? hentry), (h.rowKey _).trans hfound⟩
  · rintro ⟨entry, hentry, -, hkey⟩
    rw [h.rowKey] at hkey
    have hmem : entry.row ∈ rows := by
      rw [← h.stored]
      exact List.mem_map_of_mem (List.mem_of_getElem? hentry)
    obtain ⟨idx', hidx'⟩ := Option.isSome_iff_exists.mp
      ((h.taken key).mpr (List.mem_filterMap.mpr ⟨_, hmem, hkey⟩))
    have hfound := h.found key idx' hidx'
    have hboth : rows[idx]?.bind (Tables.rowKey text origin) = some key := by
      rw [hrow, hentry]
      exact hkey
    rw [hidx', index_unique rows h.distinct hboth hfound]

/-- A table and a copy of its live rows cannot be told apart where the rest is the same. -/
theorem exists_alike (hkeyed : Keyed text t) (hdefaults : t.schema.compatDefaults = fun _ => none)
    (hindexes : t.schema.compatIndexes = [])
    (h : Loaded text t.schema t.schema.autoIncNext (liveRows t.data.rows) t') :
    ∃ ρ, Alike ρ t t' := by
  obtain ⟨ρ, hmono, hbeyond, hrows, hpassed⟩ := exists_positions t.data.rows
  have hlength : t'.data.rows.length = (liveRows t.data.rows).length := by
    rw [← h.stored, List.length_map]
  have hcopied : ∀ i, t.data.rows[ρ i]?.map RowEntry.content =
      t'.data.rows[i]?.map RowEntry.content := by
    intro i
    rw [hrows, ← h.stored, List.getElem?_map]
    rcases hentry : t'.data.rows[i]? with _ | entry
    · rfl
    · exact congrArg some (Prod.ext rfl (h.live entry (List.mem_of_getElem? hentry)).symm)
  refine ⟨ρ, h.columns, h.primaryKey, h.defaults.trans hdefaults.symm, h.counted, hindexes, h.indexes,
    hmono, fun n => hlength ▸ hbeyond n, hcopied, hpassed, fun key => ?_⟩
  refine Option.ext fun j => ?_
  rw [hkeyed, Option.map_eq_some_iff]
  constructor
  · rintro ⟨entry, hentry, hlive, hkey⟩
    obtain ⟨i, rfl⟩ : j ∈ Set.range ρ := by
      by_contra hj
      cases hlive.symm.trans (hpassed j hj entry hentry)
    have hcontent := hcopied i
    rw [hentry] at hcontent
    rcases hentry' : t'.data.rows[i]? with _ | entry'
    · rw [hentry'] at hcontent
      cases hcontent
    · rw [hentry'] at hcontent
      have hrow : entry.row = entry'.row := congrArg Prod.fst (Option.some.inj hcontent)
      refine ⟨i, (h.keyedTable key i).mpr ⟨entry', hentry', ?_, ?_⟩, rfl⟩
      · exact h.live entry' (List.mem_of_getElem? hentry')
      · rw [h.rowKey, ← hrow, hkey]
  · rintro ⟨i, hi, rfl⟩
    obtain ⟨entry', hentry', hlive', hkey'⟩ := (h.keyedTable key i).mp hi
    have hcontent := hcopied i
    rw [hentry'] at hcontent
    rcases hentry : t.data.rows[ρ i]? with _ | entry
    · rw [hentry] at hcontent
      cases hcontent
    · rw [hentry] at hcontent
      have hsame := Option.some.inj hcontent
      have hrow : entry.row = entry'.row := congrArg Prod.fst hsame
      refine ⟨entry, rfl, (congrArg Prod.snd hsame).trans hlive', ?_⟩
      rw [← h.rowKey, hrow, hkey']

end Copy

section RoundTrip
variable {ext : Externals} {json : RowObject → Option RowObject} {now : ℕ → ℕ} {s s' : Engine}

/-- What a replayed table has to have of the first one. -/
structure TableImage where
  columns : List ColumnSchema
  primaryKey : List String
  compatDefaults : String → Option Lit
  compatIndexes : List CompatIndexDef
  autoIncNext : String → Option ℕ
  rows : List RowObject

def imageOf (schema : TableSchema) (entries : List RowEntry) : TableImage where
  columns := schema.columns
  primaryKey := schema.primaryKey
  compatDefaults := schema.compatDefaults
  compatIndexes := schema.compatIndexes
  autoIncNext := schema.autoIncNext
  rows := liveRows entries

def Engine.image (s : Engine) (key : TableKey) : Option TableImage :=
  (s.getTable key).toOption.bind fun t =>
    t.data.scanRows.toOption.map (imageOf t.schema)

/-- The tables of both engines answer the same statements alike, whatever the clocks say. -/
def AnswersAlike (ext : Externals) (s s' : Engine) : Prop :=
  ∀ key t t', s.tableOf ext.text key = some t → s'.tableOf ext.text key = some t' →
    Keyed ext.text t → ∀ runs runs' : List (Stamp × DataStatement),
      List.Forall₂ (fun a b => a.1.ext = ext ∧ b.1.ext = ext ∧ b.2 = a.2 ∧ a.2.Portable) runs runs' →
        served key runs' t' = served key runs t

/-- The export succeeds, its operations succeed on a fresh engine, and that has the databases and
tables of the first one and answers as it does. -/
def RoundTrips (ext : Externals) (json : RowObject → Option RowObject) (now : ℕ → ℕ)
    (s : Engine) : Prop :=
  ∃ ops s', snapshotExport s = .ok ops ∧ replay ext json now ops {} = .ok () s' ∧
    (∀ db, s'.hasDatabase db = s.hasDatabase db) ∧ (∀ key, s'.image key = s.image key) ∧
    AnswersAlike ext s s'

/-- A table of which nothing is lost: it has no defaults and no indexes, its counters are those
of a new table, and its rows go in as they are. -/
structure Restorable (ext : Externals) (json : RowObject → Option RowObject) (schema : TableSchema)
    (rows : List RowObject) : Prop where
  defaults : schema.compatDefaults = fun _ => none
  indexes : schema.compatIndexes = []
  counters : schema.autoIncNext = (definitionOf schema).schema.autoIncNext
  insertable : Insertable ext.text schema rows
  carried : ∀ row ∈ rows, (json row).isSome

theorem replica_fresh : Replica {} where
  unlocked _ := rfl
  plain _ _ _ hschema _ := by cases hschema
  loaded _ := rfl
  dirty _ hkey := absurd hkey List.not_mem_nil

theorem image_of_holds {key : TableKey} {t : Table} (h : Holds s key t)
    (hresident : t.data.residency = .resident) :
    s.image key = some (imageOf t.schema t.data.rows) := by
  have hscan : t.data.scanRows = .ok t.data.rows := by
    rw [TableData.scanRows, hresident]
  have hget : s.getTable key = .ok t := by
    rw [Engine.getTable, getSchema_of_some h.1, h.2]
    rfl
  rw [Engine.image, hget]
  change t.data.scanRows.toOption.map _ = _
  rw [hscan]
  rfl

theorem image_of_item {key : TableKey} {schema : TableSchema} {rows : List RowObject}
    (h : itemOf s key = .ok (.table key schema rows)) : ∃ data entries,
      s.getSchema key = .ok schema ∧ s.tables key = some data ∧ data.scanRows = .ok entries ∧
        rows = liveRows entries ∧ s.image key = some (imageOf schema entries) := by
  obtain ⟨_, data, entries, hschema, hdata, hscan, heq⟩ := itemOf_ok.mp h
  cases heq
  refine ⟨data, entries, hschema, hdata, hscan, rfl, ?_⟩
  have hget : s.getTable key = .ok ⟨schema, data⟩ := by
    rw [Engine.getTable, hschema, hdata]
    rfl
  rw [Engine.image, hget]
  change data.scanRows.toOption.map _ = _
  rw [hscan]
  rfl

theorem itemOf_of_export {items : List Item} (h : exportItems s = .ok items) {key : TableKey}
    {schema : TableSchema} (hschema : s.getSchema key = .ok schema) :
    ∃ rows, itemOf s key = .ok (.table key schema rows) := by
  obtain ⟨lists, hlists, -⟩ := exportItems_ok h
  obtain ⟨list, hlist⟩ := exists_of_mapM _ hlists
    (mem_databases.mpr (hasDatabase_of_schema hschema))
  obtain ⟨tables, htables, -⟩ := databaseItems_ok hlist
  have hname : key.table ∈ tableNames s key.db := by
    rw [mem_tableNames, schemaOf_of_ok hschema]
    rfl
  obtain ⟨item, hitem⟩ := exists_of_mapM _ htables hname
  obtain ⟨schema', data, entries, hschema', -, -, rfl⟩ := itemOf_ok.mp hitem
  cases hschema.symm.trans hschema'
  exact ⟨_, hitem⟩

theorem exists_export (h : ∀ key schema, s.getSchema key = .ok schema →
    ∃ item, itemOf s key = .ok item) : ∃ items, exportItems s = .ok items := by
  have hdatabase : ∀ db ∈ sortedNames s.catalog.keys, ∃ list, databaseItems s db = .ok list := by
    intro db _
    obtain ⟨tables, htables⟩ := exists_mapM (tableNames s db)
      (f := fun table => itemOf s ⟨db, table⟩) fun table htable => by
        obtain ⟨schema, hschema⟩ := Option.isSome_iff_exists.mp (mem_tableNames.mp htable)
        exact h _ schema (getSchema_of_some hschema)
    refine ⟨.database db :: tables, ?_⟩
    rw [databaseItems, htables]
    rfl
  obtain ⟨lists, hlists⟩ := exists_mapM _ hdatabase
  refine ⟨lists.flatten, ?_⟩
  rw [exportItems, hlists]
  rfl

/-- The engine that replayed an export lets see what was lost on the way. -/
theorem restorable_of_image {key : TableKey} {schema : TableSchema} {entries : List RowEntry}
    {t : Table} (hholds : Holds s' key t) (h : Recreated ext.text json schema (liveRows entries) t)
    (himage : s'.image key = some (imageOf schema entries)) :
    Restorable ext json schema (liveRows entries) := by
  obtain ⟨counters, out, hloaded, -, hsame⟩ := h.loaded
  rw [image_of_holds hholds hloaded.resident] at himage
  have hsame' := Option.some.inj himage
  have hrows : out = liveRows entries := by
    have hrows := congrArg TableImage.rows hsame'
    exact hloaded.liveRows.symm.trans hrows
  obtain ⟨hcounters, hwhole⟩ := hsame hrows
  subst hrows
  exact {
    defaults := (congrArg TableImage.compatDefaults hsame').symm.trans hloaded.defaults
    indexes := (congrArg TableImage.compatIndexes hsame').symm.trans hloaded.indexes
    counters := (congrArg TableImage.autoIncNext hsame').symm.trans (hloaded.counted.trans hcounters)
    insertable := ⟨hwhole, hloaded.keyed, hloaded.distinct⟩
    carried := h.carried }

theorem scanRows_of_materialize {schema : Option TableSchema} {d d' : TableData}
    (h : Engine.materialize ext.text schema d = .ok d') : d.scanRows = .ok d'.rows := by
  rw [Engine.materialize] at h
  rw [TableData.scanRows]
  rcases hresidency : d.residency with _ | ⟨e | rows⟩ <;> rw [hresidency] at h
  · cases h
    rfl
  · cases h
  · cases h
    rcases schema with _ | schema
    · rfl
    · have hrows : (Engine.loadRows ext.text (some schema) rows d.secondaryIndexes).rows = rows :=
        (@Table.sameRows_ensure ext.text _).rows
      rw [hrows]

theorem image_of_absent {key : TableKey} (h : s.schemaOf key = none) : s.image key = none := by
  rw [Engine.image, Engine.getTable]
  rw [Engine.schemaOf] at h
  rcases hschema : s.getSchema key with e | schema
  · rfl
  · rw [hschema] at h
    cases h

/-- The items name the databases of the engine. -/
theorem databases_of_export {items : List Item} (hitems : exportItems s = .ok items) (db : String) :
    (({} : Engine).hasDatabase db || items.any (·.db == db)) = s.hasDatabase db := by
  have hfresh : ({} : Engine).hasDatabase db = false := rfl
  rw [hfresh, Bool.false_or, Bool.eq_iff_iff, List.any_eq_true]
  constructor
  · rintro ⟨item, hitem, hdb⟩
    obtain rfl : item.db = db := eq_of_beq hdb
    rcases (mem_exportItems hitems).mp hitem with ⟨db', hdb', rfl⟩ | ⟨key, hok⟩
    · exact hdb'
    · obtain ⟨schema, data, entries, hschema, -, -, rfl⟩ := itemOf_ok.mp hok
      exact hasDatabase_of_schema hschema
  · intro hdb
    exact ⟨.database db, (mem_exportItems hitems).mpr (.inl ⟨db, hdb, rfl⟩), beq_self_eq_true db⟩

theorem schema_of_item {items : List Item} (hitems : exportItems s = .ok items) {item : Item}
    (hitem : item ∈ items) {key : TableKey} (hkey : item.key = some key) :
    ∃ schema, s.schemaOf key = some schema := by
  rcases (mem_exportItems hitems).mp hitem with ⟨db, -, rfl⟩ | ⟨key', hok⟩
  · cases hkey
  · obtain ⟨schema, data, entries, hschema, -, -, rfl⟩ := itemOf_ok.mp hok
    cases hkey
    exact ⟨schema, schemaOf_of_ok hschema⟩

theorem answersAlike_of_adds {items : List Item} (hitems : exportItems s = .ok items)
    (hadds : Adds (fun schema rows t =>
      Loaded ext.text schema (definitionOf schema).schema.autoIncNext rows t) items {} s')
    (h : ∀ key schema rows, Item.table key schema rows ∈ items →
      Restorable ext json schema rows) : AnswersAlike ext s s' := by
  intro key t t' ht ht' hkeyed runs runs' hruns
  obtain ⟨schema, hschema, ht⟩ := Option.bind_eq_some_iff.mp ht
  obtain ⟨data, hdata, ht⟩ := Option.bind_eq_some_iff.mp ht
  obtain ⟨data', hdata', rfl⟩ := Option.map_eq_some_iff.mp ht
  have hok : Engine.materialize ext.text (some schema) data = .ok data' := by
    rcases hm : Engine.materialize ext.text (some schema) data with e | d
    · rw [hm] at hdata'
      cases hdata'
    · rw [hm] at hdata'
      cases hdata'
      rfl
  have hscan := scanRows_of_materialize hok
  have hitem : itemOf s key = .ok (.table key schema (liveRows data'.rows)) :=
    itemOf_ok.mpr ⟨schema, data, data'.rows, getSchema_of_some hschema, hdata, hscan, rfl⟩
  have hmem := (mem_exportItems hitems).mpr (.inr ⟨key, hitem⟩)
  have hrestorable := h key schema _ hmem
  obtain ⟨copy, hholds, hloaded⟩ := hadds.tables key schema _ hmem
  have hcopy : s'.tableOf ext.text key = some copy :=
    tableOf_eq (getSchema_of_some hholds.1) hholds.2 hloaded.resident
  obtain rfl : copy = t' := Option.some.inj (hcopy.symm.trans ht')
  rw [← hrestorable.counters] at hloaded
  obtain ⟨ρ, halike⟩ := exists_alike hkeyed hrestorable.defaults hrestorable.indexes hloaded
  refine served_alike (hruns.imp fun a b hab => ?_) halike
  obtain ⟨hext, hext', hstmt, hportable⟩ := hab
  exact ⟨hext'.trans hext.symm, hstmt, hportable⟩

theorem restorable_of_roundTrips (hjson : ∀ row row', json row = some row' → row' = row)
    (h : RoundTrips ext json now s) {key : TableKey} {schema : TableSchema}
    (hschema : s.getSchema key = .ok schema) :
    ∃ data entries, s.tables key = some data ∧ data.scanRows = .ok entries ∧
      Restorable ext json schema (liveRows entries) := by
  obtain ⟨ops, s', hops, hreplay, -, himage, -⟩ := h
  rw [snapshotExport_eq] at hops
  rcases hitems : exportItems s with e | items
  · rw [hitems] at hops
    cases hops
  · rw [hitems] at hops
    cases hops
    have hadds : Adds (Recreated ext.text json) items {} s' := items_ok items replica_fresh
      (nodup_exportItems hitems) (fun _ _ _ _ => rfl)
      (fun _ schema rows _ => addsTable_recreated hjson schema rows) hreplay
    obtain ⟨rows, hitem⟩ := itemOf_of_export hitems hschema
    obtain ⟨data, entries, -, hdata, hscan, rfl, hown⟩ := image_of_item hitem
    obtain ⟨t, hholds, ht⟩ := hadds.tables key schema _
      ((mem_exportItems hitems).mpr (.inr ⟨key, hitem⟩))
    exact ⟨data, entries, hdata, hscan,
      restorable_of_image hholds ht ((himage key).trans hown)⟩

/-- An export round trips just where nothing of any table is lost: the operation that creates a
table leaves out its defaults and its indexes, and its counters are not read. -/
theorem roundTrips_iff (ext : Externals) (now : ℕ → ℕ) (s : Engine)
    (hjson : ∀ row row', json row = some row' → row' = row) :
    RoundTrips ext json now s ↔ ∀ key schema, s.getSchema key = .ok schema →
      ∃ data entries, s.tables key = some data ∧ data.scanRows = .ok entries ∧
        Restorable ext json schema (liveRows entries) := by
  constructor
  · intro h key schema hschema
    exact restorable_of_roundTrips hjson h hschema
  · intro h
    obtain ⟨items, hitems⟩ : ∃ items, exportItems s = .ok items := by
      refine exists_export fun key schema hschema => ?_
      obtain ⟨data, entries, hdata, hscan, -⟩ := h key schema hschema
      exact ⟨_, itemOf_ok.mpr ⟨schema, data, entries, hschema, hdata, hscan, rfl⟩⟩
    have hrestorable : ∀ key schema rows, Item.table key schema rows ∈ items →
        Restorable ext json schema rows := by
      intro key schema rows hmem
      rcases (mem_exportItems hitems).mp hmem with ⟨db, -, hdb⟩ | ⟨key', hitem⟩
      · cases hdb
      · obtain ⟨schema', data, entries, hschema, hdata, hscan, heq⟩ := itemOf_ok.mp hitem
        cases heq
        obtain ⟨data', entries', hdata', hscan', hrestorable⟩ := h key schema hschema
        cases hdata.symm.trans hdata'
        cases hscan.symm.trans hscan'
        exact hrestorable
    obtain ⟨s', hreplay⟩ := @items_run ext json now {} hjson items replica_fresh
      (nodup_exportItems hitems) (fun _ _ _ _ => rfl) fun key schema rows hmem =>
        ⟨(hrestorable key schema rows hmem).insertable, (hrestorable key schema rows hmem).carried⟩
    have hadds : Adds (fun schema rows t =>
        Loaded ext.text schema (definitionOf schema).schema.autoIncNext rows t) items {} s' := items_ok
      items replica_fresh (nodup_exportItems hitems) (fun _ _ _ _ => rfl) (fun key schema rows hmem =>
        addsTable_loaded hjson (hrestorable key schema rows hmem).insertable
          (hrestorable key schema rows hmem).carried) hreplay
    refine ⟨items.flatMap Item.ops, s', ?_, hreplay, fun db => ?_, fun key => ?_,
      answersAlike_of_adds hitems hadds hrestorable⟩
    · rw [snapshotExport_eq, hitems]
      rfl
    · rw [hadds.databases]
      exact databases_of_export hitems db
    · rcases hkey : s.schemaOf key with _ | schema
      · have hother := hadds.others key fun item hitem hitemKey => by
          obtain ⟨schema, hschema⟩ := schema_of_item hitems hitem hitemKey
          cases hkey.symm.trans hschema
        rw [image_of_absent hkey, image_of_absent hother.1]
      · have hschema := getSchema_of_some hkey
        obtain ⟨rows, hitem⟩ := itemOf_of_export hitems hschema
        have hmem := (mem_exportItems hitems).mpr (.inr ⟨key, hitem⟩)
        obtain ⟨data, entries, -, -, -, rfl, hown⟩ := image_of_item hitem
        obtain ⟨t, hholds, hloaded⟩ := hadds.tables key schema _ hmem
        have hlost := hrestorable key schema _ hmem
        rw [image_of_holds hholds hloaded.resident, hown, imageOf, imageOf, hloaded.columns,
          hloaded.primaryKey, hloaded.defaults, hloaded.indexes, hloaded.counted, hloaded.liveRows,
          hlost.defaults, hlost.indexes, hlost.counters]

def plainExternals : Externals where
  text _ := ""
  rowEtag _ _ := ""
  embeddingId _ _ _ := ""

/-- Two users, whose ids were given and not drawn from the counter. -/
def usersRows : List RowEntry := [1, 2].map fun id => {
  row := fun column => if column = "id" then some (.u64 id) else if column = "n" then some .null
    else none
  version := id
  schemaVersion := 1
  deleted := false
  commitTsMs := 5 }

def usersKey : TableKey := ⟨"app", "users"⟩

/-- The table of the users with the next id that it draws and the default of its column `n`. -/
def usersSchema (next : ℕ) (default? : Option Lit) : TableSchema where
  columns := [⟨"id", "u64", false, true⟩, ⟨"n", "i64", true, false⟩]
  primaryKey := ["id"]
  compatDefaults column := if column = "n" then default? else none
  tableVersion := 2
  autoIncNext column := if column = "id" then some next else none

def usersEngine (next : ℕ) (default? : Option Lit) : Engine where
  catalog := AList.insert "app" (AList.insert "users" (usersSchema next default?) ∅) ∅
  tables key := if key = usersKey then some { rows := usersRows } else none

/-- The ids of the rows as text. -/
def idExternals : Externals where
  text lits := String.intercalate "," (lits.map fun lit =>
    match lit with
    | .u64 v => toString v
    | _ => "")
  rowEtag _ version := toString version
  embeddingId dims _ _ := toString dims

theorem usersEngine_schema {next : ℕ} {default? : Option Lit} {key : TableKey}
    {schema : TableSchema} (h : (usersEngine next default?).getSchema key = .ok schema) :
    key = usersKey ∧ schema = usersSchema next default? := by
  rcases key with ⟨db, table⟩
  rw [Engine.getSchema] at h
  by_cases hdb : db = "app"
  · by_cases htable : table = "users"
    · subst hdb htable
      exact ⟨rfl, (Except.ok.inj h).symm⟩
    · subst hdb
      have hfound : (usersEngine next default?).catalog.lookup "app" =
          some (AList.insert "users" (usersSchema next default?) ∅) := rfl
      have hnone : (AList.insert "users" (usersSchema next default?) ∅ :
          AList fun _ : String => TableSchema).lookup table = none :=
        (AList.lookup_insert_ne htable).trans (AList.lookup_empty table)
      rw [hfound] at h
      dsimp only at h
      rw [hnone] at h
      cases h
  · have hnone : (usersEngine next default?).catalog.lookup db = none := by
      exact (AList.lookup_insert_ne hdb).trans (AList.lookup_empty db)
    rw [hnone] at h
    cases h

theorem users_restorable : Restorable idExternals some (usersSchema 1 none)
    (liveRows usersRows) where
  defaults := by
    funext column
    exact ite_self none
  indexes := rfl
  counters := by
    funext column
    by_cases hid : column = "id"
    · subst hid
      rfl
    · simp [usersSchema, definitionOf, TableDefinition.schema, hid, Ne.symm hid]
  insertable := by
    refine ⟨fun row hrow => ?_, by decide +kernel, by decide +kernel⟩
    obtain rfl | rfl : row = _ ∨ row = _ := by simpa [usersRows, liveRows] using hrow
    · exact ⟨by decide +kernel, by decide +kernel⟩
    · exact ⟨by decide +kernel, by decide +kernel⟩
  carried row _ := rfl

/-- With the counter and the default of a new table the users come back; with others they do
not. -/
theorem roundTrips_iff_users : RoundTrips idExternals some (fun _ => 0) (usersEngine 1 none) ∧
    ¬ RoundTrips idExternals some (fun _ => 0) (usersEngine 5 (some (.i64 7))) := by
  have hjson : ∀ row row' : RowObject, some row = some row' → row' = row :=
    fun _ _ h => (Option.some.inj h).symm
  refine ⟨(roundTrips_iff idExternals (fun _ => 0) _ hjson).mpr fun key schema hschema => ?_,
    fun h => ?_⟩
  · obtain ⟨rfl, rfl⟩ := usersEngine_schema hschema
    exact ⟨{ rows := usersRows }, usersRows, rfl, rfl, users_restorable⟩
  · obtain ⟨_, _, -, -, hlost⟩ := (roundTrips_iff idExternals (fun _ => 0) _ hjson).mp h
      usersKey (usersSchema 5 (some (.i64 7))) rfl
    cases congrFun hlost.defaults "n"

/-- A table whose column `n` has a default. -/
def defaultedTable : TableDefinition where
  columns := [⟨"id", "i64", false, false⟩, ⟨"n", "i64", true, false⟩]
  primaryKey := ["id"]
  compatDefaults column := if column = "n" then some (.i64 5) else none

/-- The default is lost when a table that was just created is exported. -/
theorem export_loses_default : ∃ s,
    createTable plainExternals.text {} ⟨"app", "users"⟩ defaultedTable false {} = .ok () s ∧
      ¬ RoundTrips plainExternals some (fun _ => 0) s := by
  obtain ⟨s, hcreate, hputs, -⟩ := @createTable_puts {} ⟨"app", "users"⟩ plainExternals
    replica_fresh defaultedTable rfl rfl
  refine ⟨s, hcreate, fun h => ?_⟩
  obtain ⟨data, entries, -, -, hrestorable⟩ := restorable_of_roundTrips
    (fun _ _ h => (Option.some.inj h).symm) h (getSchema_of_some hputs.schema)
  have hdefault : defaultedTable.schema.compatDefaults "n" = none :=
    congrFun hrestorable.defaults "n"
  cases hdefault

end RoundTrip

end SkeinDB.Tables
