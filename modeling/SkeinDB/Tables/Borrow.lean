import SkeinDB.Format.Primitives
import SkeinDB.Tables.State

/-!
# Borrowed tables

A statement borrows a table, in memory by then, and puts back what it made of it. Writing the
catalog, the log and the snapshots afterwards changes no row in memory.
-/
namespace SkeinDB.Tables
open SkeinDB.Transition

/-- The rows of a table, its indexes and counters, and the logs, with the rows of a table on disk
as a write would find them. -/
structure Observed where
  counters : Option ((String → Option ℕ) × ℕ)
  content : Option (List RowEntry × (String → Option ℕ) × (String → Option SecondaryIndex))
  wals : String → List WalFrame

def TableData.content (d : TableData) :
    List RowEntry × (String → Option ℕ) × (String → Option SecondaryIndex) :=
  (d.rows, d.pkIndex, d.secondaryIndexes)

def Engine.observed (text : LitsText) (key : TableKey) (s : Engine) : Observed where
  counters := (s.getSchema key).toOption.map fun schema => (schema.autoIncNext, schema.tableVersion)
  content := (s.tables key).map fun d =>
    ((Engine.materialize text (s.getSchema key).toOption d).toOption.getD d).content
  wals := s.disk.wals

/-- The table that a statement borrows. -/
def Engine.tableOf (text : LitsText) (key : TableKey) (s : Engine) : Option Table :=
  (s.getSchema key).toOption.bind fun schema =>
    (s.tables key).bind fun d =>
      (Engine.materialize text (some schema) d).toOption.map fun d => ⟨schema, d⟩

section Borrow
variable {text : LitsText} {key key' : TableKey} {s s' : Engine} {t t' : Table}

theorem resident_materialize {schema : Option TableSchema} {d d' : TableData}
    (h : Engine.materialize text schema d = .ok d') : d'.residency = .resident := by
  unfold Engine.materialize at h
  split at h
  · cases h
    assumption
  · cases h
  · cases h
    unfold Engine.loadRows
    dsimp only
    split
    · rfl
    · exact Table.sameRows_ensure.residency

theorem materialize_resident {schema : Option TableSchema} {d : TableData}
    (h : d.residency = .resident) : Engine.materialize text schema d = .ok d := by
  rw [Engine.materialize, h]

theorem tableOf_congr (hcatalog : s'.catalog = s.catalog) (htables : s'.tables = s.tables) :
    s'.tableOf text key = s.tableOf text key := by
  rw [Engine.tableOf, Engine.tableOf, Engine.getSchema, Engine.getSchema, hcatalog, htables]

theorem resident_tableOf (h : s.tableOf text key = some t) : t.data.residency = .resident := by
  obtain ⟨schema, -, h⟩ := Option.bind_eq_some_iff.mp h
  obtain ⟨d, -, h⟩ := Option.bind_eq_some_iff.mp h
  obtain ⟨d', hd', rfl⟩ := Option.map_eq_some_iff.mp h
  rcases hmat : Engine.materialize text (some schema) d with e | d''
  · rw [hmat] at hd'
    cases hd'
  · rw [hmat] at hd'
    cases hd'
    exact resident_materialize hmat

theorem tableOf_eq (hschema : s.getSchema key = .ok t.schema) (hdata : s.tables key = some t.data)
    (hres : t.data.residency = .resident) : s.tableOf text key = some t := by
  simp [Engine.tableOf, hschema, hdata, materialize_resident hres, Except.toOption]

theorem observed_eq (h : s.tableOf text key = some t) : s.observed text key =
    ⟨some (t.schema.autoIncNext, t.schema.tableVersion), some t.data.content, s.disk.wals⟩ := by
  obtain ⟨schema, hschema, h⟩ := Option.bind_eq_some_iff.mp h
  obtain ⟨d, hd, h⟩ := Option.bind_eq_some_iff.mp h
  obtain ⟨d', hd', rfl⟩ := Option.map_eq_some_iff.mp h
  simp [Engine.observed, hschema, hd, hd']

theorem getSchema_putTable_self {schema : TableSchema} (h : s.getSchema key = .ok schema) :
    (Engine.putTable key t s).getSchema key = .ok t.schema := by
  unfold Engine.getSchema at h ⊢
  rcases hdb : s.catalog.lookup key.db with _ | tables
  · rw [hdb] at h
    cases h
  · simp [Engine.putTable, Engine.putSchema, hdb]

theorem getSchema_putTable_of_ne (h : key ≠ key') :
    (Engine.putTable key' t s).getSchema key = s.getSchema key := by
  obtain ⟨db, table⟩ := key
  obtain ⟨db', table'⟩ := key'
  unfold Engine.getSchema Engine.putTable Engine.putSchema
  dsimp only
  rcases hcat : s.catalog.lookup db' with _ | tables
  · rfl
  · by_cases hdb : db = db'
    · subst hdb
      have htable : table ≠ table' := fun htable => h (by rw [htable])
      simp [hcat, AList.lookup_insert_ne htable]
    · simp [AList.lookup_insert_ne hdb]

theorem tableOf_putTable_self (h : s.tableOf text key = some t) (hres : t'.data.residency = .resident) :
    (Engine.putTable key t' s).tableOf text key = some t' := by
  obtain ⟨schema, hschema, -⟩ := Option.bind_eq_some_iff.mp h
  rcases hs : s.getSchema key with e | schema'
  · rw [hs] at hschema
    cases hschema
  · exact tableOf_eq (getSchema_putTable_self hs) (by simp [Engine.putTable]) hres

theorem tableOf_putTable_of_ne (h : key ≠ key') :
    (Engine.putTable key' t s).tableOf text key = s.tableOf text key := by
  rw [Engine.tableOf, getSchema_putTable_of_ne h]
  simp [Engine.tableOf, Engine.putTable, Function.update_of_ne h]

/-- Where there is no table to borrow the statement is refused, and where there is one it works
on it. -/
theorem getTableMut_cases (text : LitsText) (key : TableKey) (s : Engine) :
    (s.tableOf text key = none ∧ ∃ e s', Engine.getTableMut text key s = .error e s' ∧
      s'.observed text key = s.observed text key) ∨
    ∃ t s', s.tableOf text key = some t ∧ Engine.getTableMut text key s = .ok t s' ∧
      s'.tableOf text key = some t ∧ s'.disk = s.disk := by
  unfold Engine.getTableMut Engine.materializeStreamingTable
  rcases hd : s.tables key with _ | d
  · refine .inl ⟨by simp [Engine.tableOf, hd], ?_⟩
    rw [bind_of_ok (m := do let s ← get; _) (a := ()) (t := s)
      (by rw [bind_of_ok (m := get) rfl, hd]; rfl), bind_of_ok (m := get) rfl]
    rcases hschema : s.getSchema key with e | schema
    · exact ⟨e, s, rfl, rfl⟩
    · rw [hd]
      exact ⟨_, s, rfl, rfl⟩
  · rcases hmat : Engine.materialize text (s.getSchema key).toOption d with e | d'
    · refine .inl ⟨?_, e, s, ?_, rfl⟩
      · rcases hschema : s.getSchema key with e' | schema
        · simp [Engine.tableOf, hschema, Except.toOption]
        · rw [hschema] at hmat
          simp only [Except.toOption] at hmat
          simp [Engine.tableOf, hschema, hd, hmat, Except.toOption]
      · exact bind_of_error (by rw [bind_of_ok (m := get) rfl]; simp only [hd, hmat]; rfl)
    · set s' : Engine := { s with tables := Function.update s.tables key (some d') }
      have hs' : s'.tables key = some d' := by simp [s']
      have hcat : s'.getSchema key = s.getSchema key := rfl
      have hres := resident_materialize hmat
      rw [bind_of_ok (m := do let s ← get; _) (a := ()) (t := s')
        (by rw [bind_of_ok (m := get) rfl]; simp only [hd, hmat]; rfl), bind_of_ok (m := get) rfl]
      rcases hschema : s.getSchema key with e | schema
      · refine .inl ⟨by simp [Engine.tableOf, hschema, Except.toOption], e, s', ?_, ?_⟩
        · rw [hcat, hschema]
          rfl
        · simp only [Engine.observed, hcat, hs', hd, Option.map_some, hmat, materialize_resident hres]
          rfl
      · refine .inr ⟨⟨schema, d'⟩, s', ?_, ?_, ?_, rfl⟩
        · rw [hschema] at hmat
          simp only [Except.toOption] at hmat
          simp [Engine.tableOf, hschema, hd, hmat, Except.toOption]
        · rw [hcat, hschema, hs']
          rfl
        · exact tableOf_eq (hcat.trans hschema) hs' hres

/-- A statement that has borrowed its table leaves the table that it made of it. -/
theorem onTable_of_some {α : Type} (h : s.tableOf text key = some t) :
    ∃ s₁, s₁.tableOf text key = some t ∧ s₁.disk = s.disk ∧
      ∀ m : EStateM String Table α, Engine.onTable text key m s =
        zoom (fun _ => t) (Engine.putTable key) m s₁ := by
  rcases getTableMut_cases text key s with ⟨hnone, -⟩ | ⟨t', s₁, hsome, hget, hs₁, hdisk⟩
  · rw [hnone] at h
    cases h
  · cases hsome.symm.trans h
    exact ⟨s₁, hs₁, hdisk, fun m => bind_of_ok hget⟩

theorem onTable_of_none {α : Type} {m : EStateM String Table α}
    (h : s.tableOf text key = none) : ∃ e s', Engine.onTable text key m s = .error e s' ∧
      s'.observed text key = s.observed text key := by
  rcases getTableMut_cases text key s with ⟨-, e, s', hget, hs'⟩ | ⟨t', s₁, hsome, -⟩
  · exact ⟨e, s', bind_of_error hget, hs'⟩
  · rw [hsome] at h
    cases h

end Borrow

section Persist
variable {text : LitsText} {io : Io} {key key' : TableKey} {s s' : Engine} {M : Table → Prop}

/-- The engine has a table with some property. -/
def Engine.Holding (text : LitsText) (key : TableKey) (M : Table → Prop) (s : Engine) : Prop :=
  ∃ t, s.tableOf text key = some t ∧ M t

theorem holding_congr (h : s.Holding text key M) (hcatalog : s'.catalog = s.catalog)
    (htables : s'.tables = s.tables) : s'.Holding text key M := by
  rw [Engine.Holding, tableOf_congr hcatalog htables]
  exact h

def Engine.saved (key : TableKey) (d : TableData) (s : Engine) : Engine :=
  { s with disk := { s.disk with tables := Function.update s.disk.tables key d.rows } }

/-- A table is not written, or its rows are, and then its indexes are brought up to date. -/
theorem persistTable_cases (text : LitsText) (io : Io) (key : TableKey) (s : Engine) :
    (∃ e, Engine.persistTable text io key s = .error e s) ∨
    Engine.persistTable text io key s = .ok () s ∨
    ∃ d, s.tables key = some d ∧ d.residency = .resident ∧
      ((∃ e, Engine.persistTable text io key s = .error e (s.saved key d)) ∨
        ∃ schema, s.getSchema key = .ok schema ∧ Engine.persistTable text io key s =
          .ok () (Engine.putTable key (Table.rebuildSecondaryIndexesIfStale text ⟨schema, d⟩)
            (s.saved key d))) := by
  unfold Engine.persistTable
  rw [bind_of_ok (m := get) rfl]
  by_cases hlocked : s.encryptedLockedTables key = true
  · exact .inl ⟨_, by simp only [hlocked]; rfl⟩
  by_cases hcorrupt : s.corruptTables key = true
  · exact .inl ⟨_, by simp only [hlocked, hcorrupt]; rfl⟩
  simp only [hlocked, hcorrupt]
  rcases hd : s.tables key with _ | d
  · exact .inr (.inl rfl)
  rcases hres : d.residency with _ | segment
  · rcases hsave : io.saveTable key with _ | e
    · refine .inr (.inr ⟨d, rfl, hres, ?_⟩)
      rcases hschema : s.getSchema key with e | schema
      · exact .inl ⟨e, by simp only [hres]; rfl⟩
      · exact .inr ⟨schema, rfl, by simp only [hres]; rfl⟩
    · exact .inl ⟨e, by simp only [hres]; rfl⟩
  · exact .inr (.inl (by simp only [hres]; rfl))

/-- A property that bringing the indexes up to date keeps holds whatever is written to disk. -/
structure Stable (text : LitsText) (M : Table → Prop) : Prop where
  rebuild : ∀ t, M t → M (t.rebuildSecondaryIndexesIfStale text)

theorem preserves_persistTable (hM : Stable text M) :
    Preserves (Engine.Holding text key M) (Engine.persistTable text io key') := by
  intro s hs
  rcases persistTable_cases text io key' s with
    ⟨e, h⟩ | h | ⟨d, hd, hres, ⟨e, h⟩ | ⟨schema, hschema, h⟩⟩ <;> rw [h]
  · exact hs
  · exact hs
  · exact holding_congr hs rfl rfl
  · obtain ⟨t, ht, hMt⟩ := @holding_congr _ _ _ (s.saved key' d) _ hs rfl rfl
    by_cases hkey : key = key'
    · subst hkey
      have htable : (s.saved key d).tableOf text key = some ⟨schema, d⟩ := tableOf_eq hschema hd hres
      cases htable.symm.trans ht
      refine ⟨_, tableOf_putTable_self ht ?_, hM.rebuild _ hMt⟩
      exact Table.sameRows_rebuild.residency.trans hres
    · exact ⟨t, (tableOf_putTable_of_ne hkey).trans ht, hMt⟩

theorem preserves_persistCatalog :
    Preserves (Engine.Holding text key M) (Engine.persistCatalog io) := by
  unfold Engine.persistCatalog
  split
  · exact preserves_throw _
  · exact preserves_modify fun s hs => holding_congr hs rfl rfl

theorem preserves_walLogRows {db : String} {records : List WalRowRecord} :
    Preserves (Engine.Holding text key M) (Engine.walLogRows io db records) := by
  unfold Engine.walLogRows
  split
  · exact preserves_pure _
  · refine Preserves.bind (fun s hs => hs) fun s₀ => ?_
    refine Preserves.bind ?_ fun _ => ?_
    · exact preserves_modify fun s hs => holding_congr hs rfl rfl
    · dsimp only
      split
      · refine Preserves.bind ?_ fun _ => preserves_throw _
        exact preserves_modify fun s hs => holding_congr hs rfl rfl
      · exact preserves_modify fun s hs => holding_congr hs rfl rfl

theorem preserves_flush (hM : Stable text M) :
    Preserves (Engine.Holding text key M) (Engine.flushDirtyTables text io) := by
  intro s hs
  unfold Engine.flushDirtyTables
  rw [bind_of_ok (m := get) rfl]
  by_cases hdirty : s.dirtyTables = []
  · rw [if_pos hdirty]
    exact holding_congr hs rfl rfl
  · rw [if_neg hdirty]
    refine Preserves.bind (Preserves.foldlM (fun _ key' => ?_) _ _) (fun _ => ?_) s hs
    · refine Preserves.bind (preserves_persistTable hM) fun _ => ?_
      exact preserves_modify fun s hs => holding_congr hs rfl rfl
    · exact preserves_modify fun s hs => holding_congr hs rfl rfl

theorem preserves_persistDeferred (hM : Stable text M) :
    Preserves (Engine.Holding text key M) (Engine.persistTableDeferred text io key') := by
  intro s hs
  unfold Engine.persistTableDeferred
  rw [bind_of_ok (m := get) rfl]
  split
  · exact preserves_persistTable hM s hs
  · dsimp only
    rw [bind_of_ok (m := set _) rfl]
    split
    · exact preserves_flush hM _ (holding_congr hs rfl rfl)
    · exact holding_congr hs rfl rfl

theorem persistTable_wals (w : String → List WalFrame) :
    Preserves (fun s => s.disk.wals = w) (Engine.persistTable text io key) := by
  intro s hs
  rcases persistTable_cases text io key s with
    ⟨e, h⟩ | h | ⟨d, -, -, ⟨e, h⟩ | ⟨schema, -, h⟩⟩ <;> rw [h] <;> exact hs

theorem wals_of_flush_error {e : String}
    (h : Engine.flushDirtyTables text io s = .error e s') : s'.disk.wals = s.disk.wals := by
  unfold Engine.flushDirtyTables at h
  rw [bind_of_ok (m := get) rfl] at h
  by_cases hdirty : s.dirtyTables = []
  · rw [if_pos hdirty] at h
    cases h
  · rw [if_neg hdirty] at h
    rcases bind_error.mp h with h | ⟨_, s₂, -, h⟩
    · have hloop : Preserves (fun s₁ => s₁.disk.wals = s.disk.wals)
          (s.dirtyTables.foldlM (fun _ key => Engine.persistDirty text io key) ()) := by
        refine Preserves.foldlM (fun _ key => Preserves.bind (persistTable_wals _) fun _ => ?_) _ _
        exact preserves_modify fun s₁ hs₁ => hs₁
      have hfinal := hloop s rfl
      rwa [h] at hfinal
    · cases h

/-- The log is only removed once every snapshot is written. -/
theorem wals_of_persistDeferred_error {e : String}
    (h : Engine.persistTableDeferred text io key s = .error e s') :
    s'.disk.wals = s.disk.wals := by
  unfold Engine.persistTableDeferred at h
  rw [bind_of_ok (m := get) rfl] at h
  by_cases hrefused : s.refused key = true
  · rw [if_pos hrefused] at h
    have hfinal := @persistTable_wals text io key s.disk.wals s rfl
    rwa [h] at hfinal
  · rw [if_neg hrefused] at h
    dsimp only at h
    rw [bind_of_ok (m := set _) rfl] at h
    by_cases hcount : walFlushThreshold ≤ saturatingSucc s.mutationsSinceFlush
    · rw [if_pos hcount] at h
      have hwals := wals_of_flush_error h
      exact hwals
    · rw [if_neg hcount] at h
      cases h

end Persist

end SkeinDB.Tables
