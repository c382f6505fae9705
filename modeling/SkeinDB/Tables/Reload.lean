import SkeinDB.Tables.Export

/-!
# Rows that are inserted anew

A table that was created for an export takes its rows by `data_insert`, which fills in columns
that a row lacks and refuses a row with a null in the wrong place or with a key that is taken. A
table is rebuilt as it was where nothing is filled in and nothing refused.
-/
namespace SkeinDB.Tables
open SkeinDB.Transition

section Fill
variable {defaults : String → Option Lit} {f : Fill} {col : ColumnSchema}

theorem fillColumn_present (h : (f.row col.name).isSome) : fillColumn defaults f col = f := by
  rw [fillColumn, if_pos h]

theorem fillColumn_keeps {column : String} (h : (f.row column).isSome) :
    ((fillColumn defaults f col).row column).isSome := by
  have hinsert : ∀ value : Lit, ((f.row.insert col.name value) column).isSome := by
    intro value
    by_cases hcol : column = col.name
    · rw [RowObject.insert, hcol, Function.update_self]
      rfl
    · rw [RowObject.insert, Function.update_of_ne hcol]
      exact h
  unfold fillColumn
  split
  · exact h
  split
  · exact hinsert _
  split
  · exact hinsert _
  split
  · exact hinsert _
  · exact h

theorem fillColumn_fills (h : col.nullable ∨ col.autoIncrement) :
    ((fillColumn defaults f col).row col.name).isSome := by
  have hinsert : ∀ value : Lit, ((f.row.insert col.name value) col.name).isSome := by
    intro value
    rw [RowObject.insert, Function.update_self]
    rfl
  unfold fillColumn
  split
  · assumption
  split
  · exact hinsert _
  split
  · exact hinsert _
  split
  · exact hinsert _
  · rename_i hauto _ _ hnull
    rcases h with h | h
    · exact absurd h hnull
    · exact absurd h hauto

theorem foldl_fillColumn_present (columns : List ColumnSchema)
    (h : ∀ col ∈ columns, (f.row col.name).isSome) :
    columns.foldl (fillColumn defaults) f = f := by
  induction columns with
  | nil => rfl
  | cons col columns ih =>
    rw [List.foldl_cons, fillColumn_present (h col List.mem_cons_self)]
    exact ih fun col hcol => h col (List.mem_cons_of_mem _ hcol)

theorem foldl_fillColumn_keeps (columns : List ColumnSchema) {column : String} {f : Fill}
    (h : (f.row column).isSome) : ((columns.foldl (fillColumn defaults) f).row column).isSome := by
  induction columns generalizing f with
  | nil => exact h
  | cons col columns ih => exact ih (fillColumn_keeps h)

theorem foldl_fillColumn_fills (columns : List ColumnSchema) {f : Fill} (hcol : col ∈ columns)
    (h : col.nullable ∨ col.autoIncrement) :
    ((columns.foldl (fillColumn defaults) f).row col.name).isSome := by
  induction columns generalizing f with
  | nil => cases hcol
  | cons first columns ih =>
    rcases List.mem_cons.mp hcol with rfl | hcol
    · exact foldl_fillColumn_keeps columns (fillColumn_fills h)
    · exact ih hcol

end Fill

section Rows
variable {schema : TableSchema} {row : RowObject}

/-- A row that an insertion stores as it is. -/
structure Whole (schema : TableSchema) (row : RowObject) : Prop where
  complete : ∀ col ∈ schema.columns, (row col.name).isSome
  nonNull : notNullViolation schema row = none

theorem Whole.fill (h : Whole schema row) (last : ℕ) :
    applyDefaultsAndAutoinc schema row last = ⟨schema.autoIncNext, row, last⟩ :=
  foldl_fillColumn_present _ h.complete

/-- A row that is stored as it came was whole. -/
theorem whole_of_fill {last : ℕ}
    (hnull : notNullViolation schema (applyDefaultsAndAutoinc schema row last).row = none)
    (hrow : (applyDefaultsAndAutoinc schema row last).row = row) : Whole schema row := by
  refine ⟨fun col hcol => ?_, hrow ▸ hnull⟩
  rw [← hrow]
  by_cases hfilled : col.nullable ∨ col.autoIncrement
  · exact foldl_fillColumn_fills _ hcol hfilled
  · have hnone := List.find?_eq_none.mp (Option.map_eq_none_iff.mp hnull) col hcol
    rw [not_or] at hfilled
    by_contra hmissing
    refine hnone ?_
    rw [Option.not_isSome_iff_eq_none.mp hmissing]
    simp [hfilled.1]

/-- The text of the primary key of a row. -/
def rowKey (text : LitsText) (schema : TableSchema) (row : RowObject) : Option String :=
  (extractPk schema row).toOption.map text

end Rows

section Loaded
variable {text : LitsText} {origin : TableSchema} {counters : String → Option ℕ}
  {rows : List RowObject} {t : Table}

/-- A table with the columns and the key of another one, without defaults and indexes, that holds
the rows it was given. -/
structure Loaded (text : LitsText) (origin : TableSchema) (counters : String → Option ℕ)
    (rows : List RowObject) (t : Table) : Prop where
  columns : t.schema.columns = origin.columns
  primaryKey : t.schema.primaryKey = origin.primaryKey
  defaults : t.schema.compatDefaults = fun _ => none
  indexes : t.schema.compatIndexes = []
  counted : t.schema.autoIncNext = counters
  stored : t.data.rows.map (·.row) = rows
  live : ∀ entry ∈ t.data.rows, entry.deleted = false
  resident : t.data.residency = .resident
  secondary : t.data.secondaryIndexes = fun _ => none
  keyed : ∀ row ∈ rows, (rowKey text origin row).isSome
  distinct : (rows.filterMap (rowKey text origin)).Nodup
  taken : ∀ key, (t.data.pkIndex key).isSome ↔ key ∈ rows.filterMap (rowKey text origin)
  found : ∀ key idx, t.data.pkIndex key = some idx → rows[idx]?.bind (rowKey text origin) = some key

theorem Loaded.liveRows (h : Loaded text origin counters rows t) : liveRows t.data.rows = rows := by
  have hfilter : t.data.rows.filter (fun entry => !entry.deleted) = t.data.rows := by
    refine List.filter_eq_self.mpr fun entry hentry => ?_
    rw [h.live entry hentry]
    rfl
  rw [Tables.liveRows, hfilter, h.stored]

theorem Loaded.current (h : Loaded text origin counters rows t) : t.IndexesCurrent where
  registered := by
    rw [h.indexes]
    exact fun _ hmem => absurd hmem List.not_mem_nil
  built := by
    rw [h.secondary]
    exact fun _ _ hk => by cases hk

theorem Loaded.rowKey (h : Loaded text origin counters rows t) (row : RowObject) :
    rowKey text t.schema row = rowKey text origin row := by
  simp only [Tables.rowKey, extractPk, h.primaryKey]

theorem Loaded.conflict (h : Loaded text origin counters rows t) (key : String) :
    t.primaryKeyConflict key none = (t.data.pkIndex key).isSome := by
  rw [Table.primaryKeyConflict]
  rcases hkey : t.data.pkIndex key with _ | idx
  · rfl
  · have hidx := t.data.pk_lt key idx hkey
    have hlive := h.live _ (List.getElem_mem hidx)
    simp [Option.filter, List.getElem?_eq_getElem hidx, hlive]

theorem Loaded.unique (h : Loaded text origin counters rows t) (row : RowObject) :
    t.mysqlCompatUniqueConflict text row none = none := by
  rw [Table.mysqlCompatUniqueConflict, h.indexes]
  rfl

theorem Loaded.withCounters (h : Loaded text origin counters rows t)
    (counters' : String → Option ℕ) : Loaded text origin counters' rows (t.withCounters counters') :=
  { h with counted := rfl }

/-- The row that is stored and the counters that it leaves. -/
theorem Loaded.storeRow (h : Loaded text origin counters rows t) {row : RowObject} {key : String}
    {entry : RowEntry} (hkey : Tables.rowKey text origin row = some key)
    (hfree : t.primaryKeyConflict key none = false) (hrow : entry.row = row)
    (hlive : entry.deleted = false) :
    Loaded text origin counters (rows ++ [row]) (t.storeRow text key entry) where
  columns := h.columns
  primaryKey := h.primaryKey
  defaults := h.defaults
  indexes := h.indexes
  counted := h.counted
  stored := by
    have hrows : (t.storeRow text key entry).data.rows = t.data.rows ++ [entry] := rfl
    rw [hrows, List.map_append, h.stored, List.map_singleton, hrow]
  live := by
    intro entry' hentry'
    rcases List.mem_append.mp hentry' with hentry' | hentry'
    · exact h.live entry' hentry'
    · rw [List.mem_singleton.mp hentry', hlive]
  resident := h.resident
  secondary := by
    funext k
    exact congrArg (Option.map _) (congrFun h.secondary k)
  keyed := by
    intro row' hrow'
    rcases List.mem_append.mp hrow' with hrow' | hrow'
    · exact h.keyed row' hrow'
    · rw [List.mem_singleton.mp hrow', hkey]
      rfl
  distinct := by
    have hnot : key ∉ rows.filterMap (Tables.rowKey text origin) := by
      rw [← h.taken, ← h.conflict, hfree]
      exact Bool.false_ne_true
    rw [List.filterMap_append, List.filterMap_cons_some hkey, List.filterMap_nil]
    exact List.nodup_append.mpr ⟨h.distinct, List.nodup_singleton key, by
      rintro a ha b hb rfl
      exact hnot (List.mem_singleton.mp hb ▸ ha)⟩
  taken := by
    intro key'
    have hpk : (t.storeRow text key entry).data.pkIndex key' =
        Function.update t.data.pkIndex key (some t.data.rows.length) key' := rfl
    rw [hpk, List.filterMap_append, List.filterMap_cons_some hkey, List.filterMap_nil,
      List.mem_append, List.mem_singleton]
    by_cases hsame : key' = key
    · simp [hsame]
    · rw [Function.update_of_ne hsame, h.taken]
      simp [hsame]
  found := by
    intro key' idx hidx
    have hlength : t.data.rows.length = rows.length := by rw [← h.stored, List.length_map]
    have hidx : Function.update t.data.pkIndex key (some t.data.rows.length) key' = some idx := hidx
    by_cases hsame : key' = key
    · rw [hsame, Function.update_self, hlength] at hidx
      cases hidx
      rw [List.getElem?_concat_length, hsame]
      exact hkey
    · rw [Function.update_of_ne hsame] at hidx
      have hlt := t.data.pk_lt key' idx hidx
      rw [List.getElem?_append_left (by omega)]
      exact h.found key' idx hidx

theorem Loaded.bump (h : Loaded text origin counters rows t) :
    Loaded text origin counters rows (bump t) :=
  { h with
    secondary := by
      funext k
      exact congrArg (Option.map _) (congrFun h.secondary k) }

end Loaded

section Insert
variable {st : Stamp} {key : TableKey} {origin : TableSchema} {counters : String → Option ℕ}
  {rows : List RowObject} {t t' : Table} {p p' : InsertProgress}

theorem checkInsert_loaded (h : Loaded st.ext.text origin counters rows t) (row : RowObject)
    {pk : List Lit} : checkInsert st.ext.text t row = .ok pk ↔
      extractPk t.schema row = .ok pk ∧ t.primaryKeyConflict (st.ext.text pk) none = false := by
  rw [checkInsert, h.unique]
  rcases extractPk t.schema row with e | pk'
  · exact ⟨fun hok => (by cases hok), fun hok => (by cases hok.1)⟩
  · change (if _ then _ else _) = _ ↔ _
    constructor
    · intro hok
      split at hok
      · cases hok
      · rename_i hfree
        cases hok
        exact ⟨rfl, Bool.eq_false_iff.mpr hfree⟩
    · rintro ⟨hpk, hfree⟩
      cases hpk
      rw [hfree]
      rfl

/-- An insertion stores one row, which is the given one just where that is whole. -/
theorem insertRow_loaded (h : Loaded st.ext.text origin counters rows t) {row : RowObject}
    (hok : insertRow st key none p row t = .ok p' t') :
    ∃ counters' row', Loaded st.ext.text origin counters' (rows ++ [row']) t' ∧
      (row' = row → counters' = counters ∧ Whole t.schema row) := by
  have hloaded := h.withCounters (applyDefaultsAndAutoinc t.schema row p.lastInsertId).autoIncNext
  unfold insertRow at hok
  rw [bind_of_ok (m := get) rfl] at hok
  dsimp only at hok
  rw [bind_of_ok (m := set _) rfl] at hok
  rcases hnull : notNullViolation t.schema (applyDefaultsAndAutoinc t.schema row p.lastInsertId).row
    with _ | column
  · rw [hnull] at hok
    dsimp only at hok
    rw [bind_of_ok (m := modify _) rfl, bind_of_ok (m := get) rfl,
      Table.rebuild_of_current hloaded.current] at hok
    rcases hcheck : checkInsert st.ext.text (t.withCounters
      (applyDefaultsAndAutoinc t.schema row p.lastInsertId).autoIncNext)
      (applyDefaultsAndAutoinc t.schema row p.lastInsertId).row with e | pk
    · rw [hcheck] at hok
      cases hok
    · rw [hcheck] at hok
      cases hok
      obtain ⟨hpk, hfree⟩ := (checkInsert_loaded hloaded _).mp hcheck
      have hkey := hloaded.rowKey (applyDefaultsAndAutoinc t.schema row p.lastInsertId).row
      rw [rowKey, hpk] at hkey
      refine ⟨_, _, hloaded.storeRow hkey.symm hfree rfl rfl, fun hrow => ?_⟩
      have hwhole := whole_of_fill hnull hrow
      refine ⟨?_, hwhole⟩
      rw [hwhole.fill]
      exact h.counted
  · rw [hnull] at hok
    cases hok

/-- A whole row with a free key is stored. -/
theorem insertRow_whole (h : Loaded st.ext.text origin counters rows t) {row : RowObject}
    (hwhole : Whole t.schema row) {pk : List Lit} (hpk : extractPk t.schema row = .ok pk)
    (hfree : st.ext.text pk ∉ rows.filterMap (rowKey st.ext.text origin)) :
    ∃ p' t', insertRow st key none p row t = .ok p' t' ∧
      Loaded st.ext.text origin counters (rows ++ [row]) t' := by
  have hcounters : t.withCounters t.schema.autoIncNext = t := rfl
  have hcheck : checkInsert st.ext.text t row = .ok pk := by
    refine (checkInsert_loaded h row).mpr ⟨hpk, ?_⟩
    rw [h.conflict]
    exact Bool.eq_false_iff.mpr fun htaken => hfree ((h.taken _).mp htaken)
  have hkey := h.rowKey row
  rw [rowKey, hpk] at hkey
  have hconflict := ((checkInsert_loaded h row).mp hcheck).2
  unfold insertRow
  rw [bind_of_ok (m := get) rfl]
  dsimp only
  rw [hwhole.fill, hcounters, bind_of_ok (m := set _) rfl, hwhole.nonNull]
  dsimp only
  rw [bind_of_ok (m := modify _) rfl, bind_of_ok (m := get) rfl,
    Table.rebuild_of_current h.current, hcheck]
  exact ⟨_, _, rfl, h.storeRow hkey.symm hconflict rfl rfl⟩

theorem Loaded.whole {text : LitsText} (h : Loaded text origin counters rows t) {row : RowObject} :
    Whole t.schema row ↔ Whole origin row := by
  have hnull : notNullViolation t.schema row = notNullViolation origin row := by
    simp only [notNullViolation, h.columns]
  constructor
  · rintro ⟨hcomplete, hnonNull⟩
    exact ⟨h.columns ▸ hcomplete, hnull ▸ hnonNull⟩
  · rintro ⟨hcomplete, hnonNull⟩
    exact ⟨h.columns ▸ hcomplete, hnull ▸ hnonNull⟩

theorem foldlM_insertRow_loaded (new : List RowObject)
    (h : Loaded st.ext.text origin counters rows t)
    (hok : new.foldlM (insertRow st key none) p t = .ok p' t') :
    ∃ counters' out, Loaded st.ext.text origin counters' (rows ++ out) t' ∧
      out.length = new.length ∧
      (out = new → counters' = counters ∧ ∀ row ∈ new, Whole origin row) := by
  induction new generalizing t p counters rows with
  | nil =>
    cases hok
    refine ⟨counters, [], ?_, rfl, fun _ => ⟨rfl, fun _ hrow => absurd hrow List.not_mem_nil⟩⟩
    rwa [List.append_nil]
  | cons row new ih =>
    rw [List.foldlM_cons] at hok
    obtain ⟨p₁, t₁, hrow, hok⟩ := bind_ok.mp hok
    obtain ⟨counters₁, row₁, hloaded, hsame⟩ := insertRow_loaded h hrow
    obtain ⟨counters', out, hloaded', hlength, hrest⟩ := ih hloaded hok
    refine ⟨counters', row₁ :: out, ?_, congrArg (· + 1) hlength, fun hout => ?_⟩
    · rwa [List.append_cons]
    · obtain ⟨hrow₁, hout⟩ := List.cons.inj hout
      obtain ⟨hcounters, hwhole⟩ := hsame hrow₁
      obtain ⟨hcounters', hall⟩ := hrest hout
      refine ⟨hcounters'.trans hcounters, fun row' hrow' => ?_⟩
      rcases List.mem_cons.mp hrow' with rfl | hrow'
      · exact h.whole.mp hwhole
      · exact hall row' hrow'

/-- The rows of one statement: as many are stored, and the given ones just where they are whole. -/
theorem insertRows_loaded {new : List RowObject} {done : InsertProgress × Bool}
    (h : Loaded st.ext.text origin counters rows t)
    (hok : insertRows st key new none t = .ok done t') :
    ∃ counters' out, Loaded st.ext.text origin counters' (rows ++ out) t' ∧
      out.length = new.length ∧
      (out = new → counters' = counters ∧ ∀ row ∈ new, Whole origin row) := by
  unfold insertRows at hok
  rw [bind_of_ok (m := modify _) rfl, Table.rebuild_of_current h.current] at hok
  obtain ⟨p₁, t₁, hrows, hok⟩ := bind_ok.mp hok
  cases hok
  obtain ⟨counters', out, hloaded, hlength, hsame⟩ := foldlM_insertRow_loaded new h hrows
  exact ⟨counters', out, hloaded.bump, hlength, hsame⟩

/-- Rows that go in as they are: whole, each with a primary key, and of different keys. -/
structure Insertable (text : LitsText) (origin : TableSchema) (rows : List RowObject) : Prop where
  whole : ∀ row ∈ rows, Whole origin row
  keyed : ∀ row ∈ rows, (rowKey text origin row).isSome
  distinct : (rows.filterMap (rowKey text origin)).Nodup

theorem Insertable.left {text : LitsText} {more : List RowObject}
    (h : Insertable text origin (rows ++ more)) : Insertable text origin rows where
  whole row hrow := h.whole row (List.mem_append_left _ hrow)
  keyed row hrow := h.keyed row (List.mem_append_left _ hrow)
  distinct := by
    have hdistinct := h.distinct
    rw [List.filterMap_append] at hdistinct
    exact (List.nodup_append.mp hdistinct).1

theorem foldlM_insertRow_insertable (new : List RowObject)
    (h : Loaded st.ext.text origin counters rows t)
    (hnew : Insertable st.ext.text origin (rows ++ new)) :
    ∃ p' t', new.foldlM (insertRow st key none) p t = .ok p' t' ∧
      Loaded st.ext.text origin counters (rows ++ new) t' := by
  induction new generalizing t p rows with
  | nil =>
    refine ⟨p, t, rfl, ?_⟩
    rwa [List.append_nil]
  | cons row new ih =>
    have hmem : row ∈ rows ++ row :: new := List.mem_append_right _ List.mem_cons_self
    obtain ⟨text, htext⟩ := Option.isSome_iff_exists.mp (hnew.keyed row hmem)
    have hkey : rowKey st.ext.text t.schema row = some text := (h.rowKey row).trans htext
    rcases hpk : extractPk t.schema row with e | pk
    · rw [rowKey, hpk] at hkey
      cases hkey
    · rw [rowKey, hpk] at hkey
      obtain rfl : st.ext.text pk = text := Option.some.inj hkey
      have hfree : st.ext.text pk ∉ rows.filterMap (rowKey st.ext.text origin) := by
        have hdistinct := hnew.distinct
        rw [List.filterMap_append, List.filterMap_cons_some htext] at hdistinct
        exact fun hmem => (List.nodup_append.mp hdistinct).2.2 _ hmem _ List.mem_cons_self rfl
      obtain ⟨p₁, t₁, hrow, hloaded⟩ := @insertRow_whole st key origin counters rows t p h row
        (h.whole.mpr (hnew.whole row hmem)) pk hpk hfree
      rw [List.append_cons] at hnew
      obtain ⟨p', t', hrest, hloaded'⟩ := @ih (rows ++ [row]) t₁ p₁ hloaded hnew
      refine ⟨p', t', ?_, ?_⟩
      · rw [List.foldlM_cons]
        exact (bind_of_ok hrow).trans hrest
      · rwa [List.append_cons]

theorem insertRows_insertable {new : List RowObject}
    (h : Loaded st.ext.text origin counters rows t)
    (hnew : Insertable st.ext.text origin (rows ++ new)) :
    ∃ done t', insertRows st key new none t = .ok done t' ∧
      Loaded st.ext.text origin counters (rows ++ new) t' := by
  obtain ⟨p', t', hrows, hloaded⟩ := @foldlM_insertRow_insertable st key origin counters rows t {}
    new h hnew
  refine ⟨(p', !p'.walRecords.isEmpty && (bump t').schema.columns.any (·.autoIncrement)), bump t',
    ?_, hloaded.bump⟩
  unfold insertRows
  rw [bind_of_ok (m := modify _) rfl, Table.rebuild_of_current h.current, bind_of_ok hrows]
  rfl

end Insert

end SkeinDB.Tables
