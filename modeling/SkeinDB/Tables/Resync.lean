import SkeinDB.Tables.Reload

/-!
# A fresh engine that replays an export

`skeindb/src/engine.rs`: every operation finds an engine whose tables are in memory, have no
indexes and are not locked, and leaves such an engine. Writing the catalog, the log and the
snapshots changes no table.
-/
namespace SkeinDB.Tables
open SkeinDB.Transition

section Engines
variable {text : LitsText} {s s' s'' : Engine} {key key' : TableKey} {t t' : Table}

def Engine.schemaOf (s : Engine) (key : TableKey) : Option TableSchema :=
  (s.getSchema key).toOption

def Engine.hasDatabase (s : Engine) (db : String) : Bool := (s.catalog.lookup db).isSome

theorem schemaOf_of_ok {schema : TableSchema} (h : s.getSchema key = .ok schema) :
    s.schemaOf key = some schema := by
  rw [Engine.schemaOf, h]
  rfl

theorem getSchema_of_some {schema : TableSchema} (h : s.schemaOf key = some schema) :
    s.getSchema key = .ok schema := by
  rw [Engine.schemaOf] at h
  rcases hget : s.getSchema key with e | schema'
  · rw [hget] at h
    cases h
  · rw [hget] at h
    cases h
    rfl

/-- The same databases, schemas and tables. -/
structure SameTables (s s' : Engine) : Prop where
  databases : ∀ db, s'.hasDatabase db = s.hasDatabase db
  schemas : ∀ key, s'.schemaOf key = s.schemaOf key
  tables : s'.tables = s.tables
  refused : ∀ key, s'.refused key = s.refused key

theorem SameTables.refl (s : Engine) : SameTables s s :=
  ⟨fun _ => rfl, fun _ => rfl, rfl, fun _ => rfl⟩

theorem SameTables.trans (h : SameTables s s') (h' : SameTables s' s'') : SameTables s s'' where
  databases db := (h'.databases db).trans (h.databases db)
  schemas key := (h'.schemas key).trans (h.schemas key)
  tables := h'.tables.trans h.tables
  refused key := (h'.refused key).trans (h.refused key)

/-- One table is put in the place of what was there, and its database is there. -/
structure Puts (key : TableKey) (t : Table) (s s' : Engine) : Prop where
  databases : ∀ db, s'.hasDatabase db = (s.hasDatabase db || db == key.db)
  schema : s'.schemaOf key = some t.schema
  schemas : ∀ key', key' ≠ key → s'.schemaOf key' = s.schemaOf key'
  tables : s'.tables = Function.update s.tables key (some t.data)
  refused : ∀ key, s'.refused key = s.refused key

theorem Puts.same (h : Puts key t s s') (h' : SameTables s' s'') : Puts key t s s'' where
  databases db := (h'.databases db).trans (h.databases db)
  schema := (h'.schemas key).trans h.schema
  schemas key' hne := (h'.schemas key').trans (h.schemas key' hne)
  tables := h'.tables.trans h.tables
  refused key := (h'.refused key).trans (h.refused key)

theorem Puts.trans (h : Puts key t s s') (h' : Puts key t' s' s'') : Puts key t' s s'' where
  databases db := by
    rw [h'.databases, h.databases, Bool.or_assoc, Bool.or_self]
  schema := h'.schema
  schemas key' hne := (h'.schemas key' hne).trans (h.schemas key' hne)
  tables := by rw [h'.tables, h.tables, Function.update_idem]
  refused key := (h'.refused key).trans (h.refused key)

theorem hasDatabase_putTable (key : TableKey) (t : Table) (s : Engine) (db : String) :
    (Engine.putTable key t s).hasDatabase db = s.hasDatabase db := by
  unfold Engine.hasDatabase Engine.putTable Engine.putSchema
  dsimp only
  rcases hcat : s.catalog.lookup key.db with _ | tables
  · rfl
  · by_cases hdb : db = key.db
    · subst hdb
      simp [hcat]
    · simp [AList.lookup_insert_ne hdb]

theorem hasDatabase_of_schema {schema : TableSchema} (h : s.getSchema key = .ok schema) :
    s.hasDatabase key.db = true := by
  unfold Engine.getSchema at h
  unfold Engine.hasDatabase
  rcases hcat : s.catalog.lookup key.db with _ | tables
  · rw [hcat] at h
    cases h
  · rfl

theorem putTable_puts {schema : TableSchema} (h : s.getSchema key = .ok schema) :
    Puts key t s (Engine.putTable key t s) where
  databases db := by
    rw [hasDatabase_putTable]
    by_cases hdb : db = key.db
    · rw [hdb, hasDatabase_of_schema h, Bool.true_or]
    · rw [beq_false_of_ne hdb, Bool.or_false]
  schema := schemaOf_of_ok (getSchema_putTable_self h)
  schemas key' hne := by rw [Engine.schemaOf, getSchema_putTable_of_ne hne, Engine.schemaOf]
  tables := rfl
  refused _ := rfl

/-- To put a table where it is changes nothing. -/
theorem putTable_same (hschema : s.getSchema key = .ok t.schema)
    (hdata : s.tables key = some t.data) : SameTables s (Engine.putTable key t s) where
  databases := hasDatabase_putTable key t s
  schemas key' := by
    have hputs : Puts key t s (Engine.putTable key t s) := putTable_puts hschema
    by_cases hkey : key' = key
    · rw [hkey, hputs.schema, schemaOf_of_ok hschema]
    · exact hputs.schemas key' hkey
  tables := by
    funext key'
    change Function.update s.tables key (some t.data) key' = s.tables key'
    rw [← hdata, Function.update_eq_self]
  refused _ := rfl

/-- A table in memory without indexes. -/
structure Plain (t : Table) : Prop where
  indexes : t.schema.compatIndexes = []
  secondary : t.data.secondaryIndexes = fun _ => none
  resident : t.data.residency = .resident

theorem Plain.current (h : Plain t) : t.IndexesCurrent where
  registered := by
    rw [h.indexes]
    exact fun _ hmem => absurd hmem List.not_mem_nil
  built := by
    rw [h.secondary]
    exact fun _ _ hk => by cases hk

theorem Loaded.plain {origin : TableSchema} {counters : String → Option ℕ} {rows : List RowObject}
    (h : Loaded text origin counters rows t) : Plain t := ⟨h.indexes, h.secondary, h.resident⟩

/-- The engines that a replay goes through. -/
structure Replica (s : Engine) : Prop where
  unlocked : ∀ key, s.refused key = false
  plain : ∀ key schema data, s.getSchema key = .ok schema → s.tables key = some data →
    Plain ⟨schema, data⟩
  loaded : ∀ key, (s.schemaOf key).isSome = (s.tables key).isSome
  dirty : ∀ key ∈ s.dirtyTables, (s.schemaOf key).isSome

theorem Replica.same (h : Replica s) (hsame : SameTables s s')
    (hdirty : ∀ key ∈ s'.dirtyTables, (s.schemaOf key).isSome) : Replica s' where
  unlocked key := (hsame.refused key).trans (h.unlocked key)
  plain key schema data hschema hdata := by
    have hschema' := (hsame.schemas key).symm.trans (schemaOf_of_ok hschema)
    exact h.plain key schema data (getSchema_of_some hschema') (hsame.tables ▸ hdata)
  loaded key := by rw [hsame.schemas, hsame.tables, h.loaded]
  dirty key hkey := (congrArg Option.isSome (hsame.schemas key)).trans (hdirty key hkey)

theorem Replica.puts (h : Replica s) (hputs : Puts key t s s') (ht : Plain t)
    (hdirty : s'.dirtyTables = s.dirtyTables) : Replica s' where
  unlocked key := (hputs.refused key).trans (h.unlocked key)
  plain key' schema data hschema hdata := by
    rw [hputs.tables] at hdata
    have hschema := schemaOf_of_ok hschema
    by_cases hkey : key' = key
    · rw [hkey, Function.update_self] at hdata
      rw [hkey, hputs.schema] at hschema
      cases hdata
      cases hschema
      exact ht
    · rw [Function.update_of_ne hkey] at hdata
      rw [hputs.schemas key' hkey] at hschema
      exact h.plain key' schema data (getSchema_of_some hschema) hdata
  loaded key' := by
    rw [hputs.tables]
    by_cases hkey : key' = key
    · rw [hkey, Function.update_self, hputs.schema]
      rfl
    · rw [Function.update_of_ne hkey, hputs.schemas key' hkey, h.loaded]
  dirty key' hkey' := by
    by_cases hkey : key' = key
    · rw [hkey, hputs.schema]
      rfl
    · rw [hputs.schemas key' hkey]
      exact h.dirty key' (hdirty ▸ hkey')

end Engines

section Persist
variable {text : LitsText} {s : Engine} {key : TableKey}

/-- A table of a replica is written, and nothing in memory changes. -/
theorem persistTable_replica (h : Replica s) (hkey : (s.schemaOf key).isSome) :
    ∃ s', Engine.persistTable text {} key s = .ok () s' ∧ SameTables s s' ∧
      s'.dirtyTables = s.dirtyTables := by
  obtain ⟨schema, hschema⟩ := Option.isSome_iff_exists.mp hkey
  obtain ⟨data, hdata⟩ := Option.isSome_iff_exists.mp ((h.loaded key).symm.trans hkey)
  have hget := getSchema_of_some hschema
  have hplain := h.plain key schema data hget hdata
  have hunlocked := h.unlocked key
  rw [Engine.refused, Bool.or_eq_false_iff] at hunlocked
  have hrebuild : Table.rebuildSecondaryIndexesIfStale text ⟨schema, data⟩ = ⟨schema, data⟩ :=
    Table.rebuild_of_current hplain.current
  have hsaved : SameTables s (s.saved key data) := ⟨fun _ => rfl, fun _ => rfl, rfl, fun _ => rfl⟩
  have hput : SameTables (s.saved key data) (Engine.putTable key ⟨schema, data⟩ (s.saved key data)) :=
    putTable_same hget hdata
  refine ⟨Engine.putTable key ⟨schema, data⟩ (s.saved key data), ?_, hsaved.trans hput, rfl⟩
  unfold Engine.persistTable
  rw [bind_of_ok (m := get) rfl]
  have hresident : data.residency = .resident := hplain.resident
  simp only [hunlocked.1, hunlocked.2, hdata, hresident, hget, hrebuild]
  rfl

theorem persistDirty_replica (keys : List TableKey) (h : Replica s)
    (hkeys : ∀ key ∈ keys, (s.schemaOf key).isSome) :
    ∃ s', keys.foldlM (fun _ key => Engine.persistDirty text {} key) () s = .ok () s' ∧
      SameTables s s' ∧ Replica s' := by
  induction keys generalizing s with
  | nil => exact ⟨s, rfl, .refl s, h⟩
  | cons key keys ih =>
    obtain ⟨s₁, hpersist, hsame, hdirty⟩ := @persistTable_replica text s key h
      (hkeys key List.mem_cons_self)
    set s₂ : Engine := { s₁ with dirtyTables := s₁.dirtyTables.erase key } with hs₂
    have hsame₂ : SameTables s s₂ := hsame.trans ⟨fun _ => rfl, fun _ => rfl, rfl, fun _ => rfl⟩
    have hreplica : Replica s₂ := by
      refine h.same hsame₂ fun key' hkey' => h.dirty key' ?_
      rw [← hdirty]
      exact List.mem_of_mem_erase hkey'
    obtain ⟨s', hrest, hsame', hreplica'⟩ := ih hreplica fun key' hkey' => by
      rw [hsame₂.schemas]
      exact hkeys key' (List.mem_cons_of_mem _ hkey')
    refine ⟨s', ?_, hsame₂.trans hsame', hreplica'⟩
    rw [List.foldlM_cons]
    have hfirst : Engine.persistDirty text {} key s = .ok () s₂ := by
      unfold Engine.persistDirty
      rw [bind_of_ok hpersist]
      rfl
    rw [bind_of_ok hfirst]
    exact hrest

theorem flush_replica (h : Replica s) :
    ∃ s', Engine.flushDirtyTables text {} s = .ok () s' ∧ SameTables s s' ∧ Replica s' := by
  unfold Engine.flushDirtyTables
  rw [bind_of_ok (m := get) rfl]
  by_cases hdirty : s.dirtyTables = []
  · rw [if_pos hdirty]
    have hsame : SameTables s { s with mutationsSinceFlush := 0 } :=
      ⟨fun _ => rfl, fun _ => rfl, rfl, fun _ => rfl⟩
    exact ⟨_, rfl, hsame, h.same hsame h.dirty⟩
  · rw [if_neg hdirty]
    obtain ⟨s₁, hpersist, hsame, hreplica⟩ := @persistDirty_replica text s s.dirtyTables h h.dirty
    have hsame' : SameTables s₁ (Engine.walTruncate { s₁ with mutationsSinceFlush := 0 }) :=
      ⟨fun _ => rfl, fun _ => rfl, rfl, fun _ => rfl⟩
    exact ⟨_, bind_of_ok hpersist, hsame.trans hsame', hreplica.same hsame' hreplica.dirty⟩

theorem persistDeferred_replica (h : Replica s) (hkey : (s.schemaOf key).isSome) :
    ∃ s', Engine.persistTableDeferred text {} key s = .ok () s' ∧ SameTables s s' ∧
      Replica s' := by
  unfold Engine.persistTableDeferred
  rw [bind_of_ok (m := get) rfl, if_neg (Bool.eq_false_iff.mp (h.unlocked key))]
  dsimp only
  rw [bind_of_ok (m := set _) rfl]
  set s₁ : Engine := { s with
    dirtyTables := if key ∈ s.dirtyTables then s.dirtyTables else s.dirtyTables ++ [key]
    mutationsSinceFlush := saturatingSucc s.mutationsSinceFlush } with hs₁
  have hsame : SameTables s s₁ := ⟨fun _ => rfl, fun _ => rfl, rfl, fun _ => rfl⟩
  have hreplica : Replica s₁ := by
    refine h.same hsame fun key' hkey' => ?_
    have hmem : key' ∈ s.dirtyTables ∨ key' = key := by
      rw [hs₁] at hkey'
      dsimp only at hkey'
      split at hkey'
      · exact .inl hkey'
      · simpa using hkey'
    rcases hmem with hmem | rfl
    · exact h.dirty key' hmem
    · exact hkey
  split
  · obtain ⟨s', hflush, hsame', hreplica'⟩ := @flush_replica text s₁ hreplica
    exact ⟨s', hflush, hsame.trans hsame', hreplica'⟩
  · exact ⟨s₁, rfl, hsame, hreplica⟩

end Persist

section Insert
variable {ext : Externals} {now : ℕ → ℕ} {key : TableKey} {s : Engine} {t : Table}
  {rows : List RowObject}

/-- A statement of a replica borrows its table as it is. -/
theorem onTable_replica {α : Type} (m : EStateM String Table α)
    (hschema : s.getSchema key = .ok t.schema) (hdata : s.tables key = some t.data)
    (hresident : t.data.residency = .resident) :
    Engine.onTable ext.text key m s = zoom (fun _ => t) (Engine.putTable key) m s := by
  have hmaterialize : Engine.materializeStreamingTable ext.text key s = .ok () s := by
    have hupdate : Function.update s.tables key (some t.data) = s.tables := by
      rw [← hdata, Function.update_eq_self]
    unfold Engine.materializeStreamingTable
    rw [bind_of_ok (m := get) rfl]
    simp only [hdata, materialize_resident hresident, hupdate]
    rfl
  have hget : Engine.getTableMut ext.text key s = .ok t s := by
    unfold Engine.getTableMut
    rw [bind_of_ok hmaterialize, bind_of_ok (m := get) rfl]
    simp only [hschema, hdata]
    rfl
  exact bind_of_ok hget

/-- The stamp of a statement of the engine. -/
def stampOf (ext : Externals) (now : ℕ → ℕ) (s : Engine) (key : TableKey) : Stamp :=
  ⟨ext, now, s.schemaVersionFor key⟩

theorem walLogRows_replica (db : String) (records : List WalRowRecord) :
    ∃ s', Engine.walLogRows {} db records s = .ok () s' ∧ SameTables s s' ∧
      s'.dirtyTables = s.dirtyTables := by
  unfold Engine.walLogRows
  split
  · exact ⟨s, rfl, .refl s, rfl⟩
  · exact ⟨_, rfl, ⟨fun _ => rfl, fun _ => rfl, rfl, fun _ => rfl⟩, rfl⟩

theorem persistCatalog_replica (s : Engine) :
    ∃ s', Engine.persistCatalog {} s = .ok () s' ∧ SameTables s s' ∧
      s'.dirtyTables = s.dirtyTables :=
  ⟨_, rfl, ⟨fun _ => rfl, fun _ => rfl, rfl, fun _ => rfl⟩, rfl⟩

/-- What a statement writes at its end changes no table. -/
theorem commitInsert_replica (h : Replica s) (hkey : (s.schemaOf key).isSome)
    (done : InsertProgress × Bool) :
    ∃ r s', commitInsert ext {} key done s = .ok r s' ∧ SameTables s s' ∧ Replica s' := by
  obtain ⟨progress, catalogPersistNeeded⟩ := done
  have htail : ∀ s : Engine, Replica s → (s.schemaOf key).isSome → ∃ r s', (do
      Engine.walLogRows {} key.db progress.walRecords
      Engine.persistTableDeferred ext.text {} key
      return ({ affected := progress.walRecords.length
                lastInsertId := progress.lastInsertId
                returning := if progress.returning = [] then none else some progress.returning } :
        WriteResult) : EStateM String Engine WriteResult) s = .ok r s' ∧ SameTables s s' ∧
          Replica s' := by
    intro s h hkey
    obtain ⟨s₁, hwal, hsame, hdirty⟩ := @walLogRows_replica s key.db progress.walRecords
    have hreplica : Replica s₁ := h.same hsame (hdirty ▸ h.dirty)
    have hkey₁ : (s₁.schemaOf key).isSome := by rwa [hsame.schemas]
    obtain ⟨s₂, hpersist, hsame₂, hreplica₂⟩ := @persistDeferred_replica ext.text s₁ key hreplica
      hkey₁
    exact ⟨_, s₂, (bind_of_ok hwal).trans (bind_of_ok hpersist), hsame.trans hsame₂, hreplica₂⟩
  unfold commitInsert
  dsimp only
  cases catalogPersistNeeded
  · exact htail s h hkey
  · obtain ⟨s₁, hcatalog, hsame, hdirty⟩ := persistCatalog_replica s
    have hkey₁ : (s₁.schemaOf key).isSome := by rwa [hsame.schemas]
    obtain ⟨r, s', hrest, hsame', hreplica'⟩ := htail s₁ (h.same hsame (hdirty ▸ h.dirty)) hkey₁
    exact ⟨r, s', (bind_of_ok hcatalog).trans hrest, hsame.trans hsame', hreplica'⟩

theorem dataInsert_ok (h : Replica s) (hschema : s.getSchema key = .ok t.schema)
    (hdata : s.tables key = some t.data) {done : InsertProgress × Bool} {t' : Table}
    (hrows : insertRows (stampOf ext now s key) key rows none t = .ok done t') (ht' : Plain t') :
    ∃ r s', dataInsert ext {} now key rows none s = .ok r s' ∧ Puts key t' s s' ∧ Replica s' := by
  have hresident : t.data.residency = .resident := (h.plain key _ _ hschema hdata).resident
  have hputs : Puts key t' s (Engine.putTable key t' s) := putTable_puts hschema
  have hreplica := h.puts hputs ht' rfl
  have hborrow : Engine.onTable ext.text key (insertRows (stampOf ext now s key) key rows none) s =
      .ok done (Engine.putTable key t' s) := by
    rw [onTable_replica _ hschema hdata hresident, zoom, hrows]
  obtain ⟨r, s', hcommit, hsame, hreplica'⟩ := @commitInsert_replica ext key
    (Engine.putTable key t' s) hreplica (by rw [hputs.schema]; rfl) done
  refine ⟨r, s', ?_, hputs.same hsame, hreplica'⟩
  unfold dataInsert
  rw [bind_of_ok (m := get) rfl]
  exact (bind_of_ok hborrow).trans hcommit

theorem dataInsert_error (h : Replica s) (hschema : s.getSchema key = .ok t.schema)
    (hdata : s.tables key = some t.data) {e : String} {t' : Table}
    (hrows : insertRows (stampOf ext now s key) key rows none t = .error e t') :
    ∃ s', dataInsert ext {} now key rows none s = .error e s' := by
  have hresident : t.data.residency = .resident := (h.plain key _ _ hschema hdata).resident
  have hborrow : Engine.onTable ext.text key (insertRows (stampOf ext now s key) key rows none) s =
      .error e (Engine.putTable key t' s) := by
    rw [onTable_replica _ hschema hdata hresident, zoom, hrows]
  refine ⟨Engine.putTable key t' s, ?_⟩
  unfold dataInsert
  rw [bind_of_ok (m := get) rfl]
  exact bind_of_error hborrow

end Insert

section Create
variable {s : Engine} {key : TableKey}

/-- A database is there and no table has changed. -/
structure AddsDatabase (db : String) (s s' : Engine) : Prop where
  databases : ∀ db', s'.hasDatabase db' = (s.hasDatabase db' || db' == db)
  schemas : ∀ key, s'.schemaOf key = s.schemaOf key
  tables : s'.tables = s.tables
  refused : ∀ key, s'.refused key = s.refused key

theorem schemaOf_insert_empty {catalog : Catalog} {db : String} (h : s.catalog.lookup db = none)
    (hcatalog : catalog = s.catalog.insert db ∅) (key : TableKey) :
    ({ s with catalog } : Engine).schemaOf key = s.schemaOf key := by
  subst hcatalog
  unfold Engine.schemaOf Engine.getSchema
  dsimp only
  by_cases hdb : key.db = db
  · rw [hdb, h, AList.lookup_insert]
    rfl
  · rw [AList.lookup_insert_ne hdb]

theorem createDatabase_adds (s : Engine) (db : String) :
    ∃ s', createDatabase {} db s = .ok () s' ∧ AddsDatabase db s s' ∧
      s'.dirtyTables = s.dirtyTables := by
  refine ⟨_, rfl, ?_, rfl⟩
  rcases hdb : s.catalog.lookup db with _ | tables
  · simp only [hdb, Option.isSome_none]
    refine ⟨fun db' => ?_, fun key => schemaOf_insert_empty hdb rfl key, rfl, fun _ => rfl⟩
    change ((s.catalog.insert db ∅).lookup db').isSome = (s.hasDatabase db' || db' == db)
    by_cases hsame : db' = db
    · rw [hsame, AList.lookup_insert, beq_self_eq_true, Bool.or_true]
      rfl
    · rw [AList.lookup_insert_ne hsame, beq_false_of_ne hsame, Bool.or_false]
      rfl
  · simp only [hdb, Option.isSome_some]
    refine ⟨fun db' => ?_, fun _ => rfl, rfl, fun _ => rfl⟩
    change s.hasDatabase db' = (s.hasDatabase db' || db' == db)
    by_cases hsame : db' = db
    · rw [hsame, Engine.hasDatabase, hdb]
      rfl
    · rw [beq_false_of_ne hsame, Bool.or_false]

theorem Replica.addsDatabase {s' : Engine} {db : String} (h : Replica s)
    (hadds : AddsDatabase db s s') (hdirty : s'.dirtyTables = s.dirtyTables) : Replica s' where
  unlocked key := (hadds.refused key).trans (h.unlocked key)
  plain key schema data hschema hdata := by
    have hschema' := (hadds.schemas key).symm.trans (schemaOf_of_ok hschema)
    exact h.plain key schema data (getSchema_of_some hschema') (hadds.tables ▸ hdata)
  loaded key := by rw [hadds.schemas, hadds.tables, h.loaded]
  dirty key hkey := by
    rw [hadds.schemas]
    exact h.dirty key (hdirty ▸ hkey)

theorem getSchema_putSchema {schema : TableSchema} (h : s.hasDatabase key.db = true)
    {s' : Engine} (hs' : s'.catalog = Engine.putSchema s.catalog key schema) :
    s'.getSchema key = .ok schema := by
  unfold Engine.hasDatabase at h
  obtain ⟨tables, htables⟩ := Option.isSome_iff_exists.mp h
  unfold Engine.getSchema
  rw [hs', Engine.putSchema, htables]
  dsimp only
  rw [AList.lookup_insert]
  dsimp only
  rw [AList.lookup_insert]

/-- A table that is not there yet is created empty. -/
theorem createTable_puts (ext : Externals) (h : Replica s) (define : TableDefinition)
    (hindexes : define.compatIndexes = []) (habsent : s.schemaOf key = none) :
    ∃ s', createTable ext.text {} key define false s = .ok () s' ∧
      Puts key ⟨define.schema, .empty⟩ s s' ∧ Replica s' := by
  obtain ⟨s₁, hdatabase, hadds, hdirty⟩ := createDatabase_adds s key.db
  have habsent₁ : s₁.schemaOf key = none := (hadds.schemas key).trans habsent
  obtain ⟨e, he⟩ : ∃ e, s₁.getSchema key = .error e := by
    rcases hget : s₁.getSchema key with e | schema
    · exact ⟨e, rfl⟩
    · rw [schemaOf_of_ok hget] at habsent₁
      cases habsent₁
  have hdb : s₁.hasDatabase key.db = true := by
    rw [hadds.databases, beq_self_eq_true, Bool.or_true]
  set s₂ : Engine := { s₁ with
    catalog := Engine.putSchema s₁.catalog key define.schema
    tables := Function.update s₁.tables key (some .empty)
    schemaVersions := Function.update s₁.schemaVersions key (some 1) } with hs₂
  have hschema₂ : s₂.getSchema key = .ok define.schema := getSchema_putSchema hdb rfl
  have hput : Puts key ⟨define.schema, .empty⟩ s₁ s₂ := by
    refine ⟨fun db => ?_, schemaOf_of_ok hschema₂, fun key' hne => ?_, rfl, fun _ => rfl⟩
    · have hsame := hasDatabase_putTable key ⟨define.schema, .empty⟩ s₁ db
      have hsame₂ : s₂.hasDatabase db = s₁.hasDatabase db := hsame
      rw [hsame₂]
      by_cases hname : db = key.db
      · rw [hname, hdb, Bool.true_or]
      · rw [beq_false_of_ne hname, Bool.or_false]
    · have hsame := @getSchema_putTable_of_ne key' key s₁ ⟨define.schema, .empty⟩ hne
      exact congrArg Except.toOption hsame
  have hputs : Puts key ⟨define.schema, .empty⟩ s s₂ := by
    refine ⟨fun db => ?_, hput.schema, fun key' hne => ?_, ?_, fun key' => ?_⟩
    · rw [hput.databases, hadds.databases, Bool.or_assoc, Bool.or_self]
    · rw [hput.schemas key' hne, hadds.schemas]
    · rw [hput.tables, hadds.tables]
    · rw [hput.refused, hadds.refused]
  have hreplica : Replica s₂ := h.puts hputs ⟨hindexes, rfl, rfl⟩ hdirty
  obtain ⟨s₃, hcatalog, hsame₃, hdirty₃⟩ := persistCatalog_replica s₂
  have hreplica₃ : Replica s₃ := hreplica.same hsame₃ (hdirty₃ ▸ hreplica.dirty)
  obtain ⟨s₄, hpersist, hsame₄, hdirty₄⟩ := @persistTable_replica ext.text s₃ key hreplica₃
    (by rw [hsame₃.schemas, schemaOf_of_ok hschema₂]; rfl)
  refine ⟨s₄, ?_, (hputs.same hsame₃).same hsame₄,
    hreplica₃.same hsame₄ (hdirty₄ ▸ hreplica₃.dirty)⟩
  unfold createTable
  rw [bind_of_ok hdatabase, bind_of_ok (m := get) rfl, he]
  dsimp only
  rw [bind_of_ok (m := set _) rfl]
  exact (bind_of_ok hcatalog).trans hpersist

theorem loaded_empty (text : LitsText) (origin : TableSchema) (define : TableDefinition)
    (hcolumns : define.columns = origin.columns) (hkey : define.primaryKey = origin.primaryKey)
    (hdefaults : define.compatDefaults = fun _ => none) (hindexes : define.compatIndexes = []) :
    Loaded text origin define.schema.autoIncNext [] ⟨define.schema, .empty⟩ where
  columns := hcolumns
  primaryKey := hkey
  defaults := hdefaults
  indexes := hindexes
  counted := rfl
  stored := rfl
  live := fun _ hentry => absurd hentry List.not_mem_nil
  resident := rfl
  secondary := rfl
  keyed := fun _ hrow => absurd hrow List.not_mem_nil
  distinct := List.nodup_nil
  taken := fun _ => ⟨fun hsome => (by cases hsome), fun hmem => absurd hmem List.not_mem_nil⟩
  found := fun _ _ hidx => (by cases hidx)

end Create

end SkeinDB.Tables
