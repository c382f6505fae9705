import Mathlib.Tactic

/-!
# Tables in memory

`skeindb/src/engine.rs`: the schema and the rows of a table, its primary-key index and its
secondary indexes, and the helpers with which the statements check and change them.
-/
namespace SkeinDB.Tables

inductive JsonNumber
  | posInt (n : ℕ)
  | negInt (n : ℤ)
  | float (x : Float)
  deriving BEq

inductive Json
  | null
  | bool (b : Bool)
  | number (n : JsonNumber)
  | string (s : String)
  | array (items : List Json)
  | object (members : List (String × Json))
  deriving BEq

/-- A typed literal value. -/
inductive Lit
  | null
  | bool (v : Bool)
  | i64 (v : ℤ)
  | u64 (v : ℕ)
  | f64 (v : Float)
  | dec (v : String)
  | str (v : String)
  | bytes (b64 : String)
  | json (v : Json)
  | embedding (dims : ℕ) (v : List Float32) (model : Option String)
  | date (iso : String)
  | time (iso : String)
  | datetime (iso : String)
  | uuid (v : String)
  deriving BEq

def Lit.isNull : Lit → Bool
  | .null => true
  | _ => false

abbrev RowObject := String → Option Lit

def RowObject.insert (row : RowObject) (column : String) (value : Lit) : RowObject :=
  Function.update row column (some value)

/-- The text that `serde_json` writes for a list of values. -/
abbrev LitsText := List Lit → String

def u64Max : ℕ := 2 ^ 64 - 1

def saturatingSucc (v : ℕ) : ℕ := min (v + 1) u64Max

structure ColumnSchema where
  name : String
  kind : String
  nullable : Bool
  autoIncrement : Bool := false
  deriving DecidableEq, Repr

structure CompatIndexDef where
  name : String
  columns : List String
  unique : Bool
  deriving DecidableEq, Repr

/-- `compatDefaults` and `compatIndexes` are what is read out of the `compat_mysql` object:
its column defaults, and its indexes that name a column. -/
structure TableSchema where
  columns : List ColumnSchema
  primaryKey : List String
  compatDefaults : String → Option Lit := fun _ => none
  compatIndexes : List CompatIndexDef := []
  tableVersion : ℕ := 0
  autoIncNext : String → Option ℕ := fun _ => none

structure RowEntry where
  row : RowObject
  version : ℕ
  schemaVersion : ℕ
  deleted : Bool
  commitTsMs : ℕ

structure SecondaryIndex where
  builtVersion : ℕ
  columns : List String
  included : List String
  keys : String → Option (List ℕ)

/-- Where the rows of a table are: in memory, or in a segment file, with what reading that
file yields. -/
inductive TableResidency
  | resident
  | streaming (segment : Except String (List RowEntry))

/-- The primary-key index holds positions of rows. -/
structure TableData where
  rows : List RowEntry := []
  pkIndex : String → Option ℕ := fun _ => none
  secondaryIndexes : String → Option SecondaryIndex := fun _ => none
  residency : TableResidency := .resident
  pk_lt : ∀ key idx, pkIndex key = some idx → idx < rows.length := by simp

def TableData.empty : TableData := {}

def TableData.isResident (d : TableData) : Bool :=
  match d.residency with
  | .resident => true
  | .streaming _ => false

/-- `for_each_table_row`: the rows in memory or those of the segment. -/
def TableData.scanRows (d : TableData) : Except String (List RowEntry) :=
  match d.residency with
  | .resident => .ok d.rows
  | .streaming segment => segment

/-- A table as a statement borrows it. -/
structure Table where
  schema : TableSchema
  data : TableData

section Schema

def bumpTableVersion (schema : TableSchema) : TableSchema :=
  { schema with tableVersion := saturatingSucc schema.tableVersion }

def nextRowVersion (schema : TableSchema) : ℕ := saturatingSucc schema.tableVersion

def extractPk (schema : TableSchema) (row : RowObject) : Except String (List Lit) :=
  if schema.primaryKey = [] then .error "table has no primary key"
  else schema.primaryKey.mapM fun k =>
    match row k with
    | none => .error ("missing pk column: " ++ k)
    | some v => .ok v

def notNullViolation (schema : TableSchema) (row : RowObject) : Option String :=
  (schema.columns.find? fun col => !col.nullable && (row col.name).all Lit.isNull).map
    ColumnSchema.name

/-- The counters, the row and the last value drawn from a counter, while the columns that
the row leaves out are filled in. -/
structure Fill where
  autoIncNext : String → Option ℕ
  row : RowObject
  lastInsertId : ℕ

def fillColumn (defaults : String → Option Lit) (f : Fill) (col : ColumnSchema) : Fill :=
  if (f.row col.name).isSome then f
  else if col.autoIncrement then
    let next := (f.autoIncNext col.name).getD 1
    { autoIncNext := Function.update f.autoIncNext col.name (some ((next + 1) % 2 ^ 64))
      row := f.row.insert col.name (.u64 next)
      lastInsertId := next }
  else
    match defaults col.name with
    | some default => { f with row := f.row.insert col.name default }
    | none => if col.nullable then { f with row := f.row.insert col.name .null } else f

def applyDefaultsAndAutoinc (schema : TableSchema) (row : RowObject) (lastInsertId : ℕ) : Fill :=
  schema.columns.foldl (fillColumn schema.compatDefaults)
    { autoIncNext := schema.autoIncNext, row, lastInsertId }

def ensurePkValues (schema : TableSchema) (pk : List Lit) (row : RowObject) :
    Except String RowObject :=
  if schema.primaryKey.length ≠ pk.length then
    .error "invalid_request: primary key length mismatch"
  else (schema.primaryKey.zip pk).foldlM (fun row (col, value) =>
    match row col with
    | none => .ok (row.insert col value)
    | some existing =>
      if existing != value then .error ("invalid_request: primary key mismatch for " ++ col)
      else .ok row) row

def duplicateKeyMessage (indexName : String) : String := "duplicate key for " ++ indexName

def primaryKeyIndexName (schema : TableSchema) : String :=
  if schema.primaryKey = [] then "PRIMARY KEY" else "PRIMARY"

end Schema

section Indexes

def secondaryIndexKey (columns included : List String) : String :=
  "cols:" ++ String.intercalate "," columns ++ "|inc:" ++ String.intercalate "," included

variable (text : LitsText)

/-- The values of a row in some columns, when it has them all. -/
def rowValues (columns : List String) (row : RowObject) : Option (List Lit) :=
  columns.mapM row

def pushPosting (keys : String → Option (List ℕ)) (key : String) (idx : ℕ) :
    String → Option (List ℕ) :=
  Function.update keys key (some ((keys key).getD [] ++ [idx]))

def buildSecondaryIndex (tableVersion : ℕ) (columns included : List String)
    (rows : List RowEntry) : SecondaryIndex where
  builtVersion := tableVersion
  columns := columns
  included := included
  keys := rows.zipIdx.foldl (fun keys (entry, idx) =>
    if entry.deleted then keys
    else match rowValues columns entry.row with
      | none => keys
      | some values => pushPosting keys (text values) idx) fun _ => none

def secondaryIndexRowKey (columns : List String) (row : RowObject) : Option String :=
  (rowValues columns row).bind fun values => if values = [] then none else some (text values)

def SecondaryIndex.addRow (index : SecondaryIndex) (idx : ℕ) (row : RowObject) :
    SecondaryIndex :=
  match secondaryIndexRowKey text index.columns row with
  | none => index
  | some key => { index with keys := pushPosting index.keys key idx }

def SecondaryIndex.removeRow (index : SecondaryIndex) (idx : ℕ) (row : RowObject) :
    SecondaryIndex :=
  match secondaryIndexRowKey text index.columns row with
  | none => index
  | some key =>
    match index.keys key with
    | none => index
    | some values =>
      let kept := values.filter (· ≠ idx)
      { index with keys := Function.update index.keys key (if kept = [] then none else some kept) }

end Indexes

section Rows
variable {d : TableData} {key : String} {entry : RowEntry}

theorem pushed_pk_lt (h : ∀ k i, d.pkIndex k = some i → i < d.rows.length) (k : String) (i : ℕ)
    (hi : Function.update d.pkIndex key (some d.rows.length) k = some i) :
    i < (d.rows ++ [entry]).length := by
  rw [List.length_append, List.length_singleton]
  by_cases hk : k = key
  · subst hk
    rw [Function.update_self] at hi
    cases hi
    exact Nat.lt_succ_self _
  · rw [Function.update_of_ne hk] at hi
    exact Nat.lt_succ_of_lt (h k i hi)

theorem set_pk_lt (h : ∀ k i, d.pkIndex k = some i → i < d.rows.length) (idx : ℕ) (k : String)
    (i : ℕ) (hi : d.pkIndex k = some i) : i < (d.rows.set idx entry).length := by
  rw [List.length_set]
  exact h k i hi

theorem moved_pk_lt (h : ∀ k i, d.pkIndex k = some i → i < d.rows.length) (old : String) {idx : ℕ}
    (hidx : idx < d.rows.length) (k : String) (i : ℕ)
    (hi : Function.update (Function.update d.pkIndex old none) key (some idx) k = some i) :
    i < d.rows.length := by
  by_cases hk : k = key
  · subst hk
    rw [Function.update_self] at hi
    cases hi
    exact hidx
  · rw [Function.update_of_ne hk] at hi
    by_cases hold : k = old
    · subst hold
      rw [Function.update_self] at hi
      cases hi
    · rw [Function.update_of_ne hold] at hi
      exact h k i hi

def TableData.pushRow (d : TableData) (key : String) (entry : RowEntry) : TableData :=
  { d with
    rows := d.rows ++ [entry]
    pkIndex := Function.update d.pkIndex key (some d.rows.length)
    pk_lt := pushed_pk_lt d.pk_lt }

def TableData.setRow (d : TableData) (idx : ℕ) (entry : RowEntry) : TableData :=
  { d with rows := d.rows.set idx entry, pk_lt := set_pk_lt d.pk_lt idx }

def TableData.movePk (d : TableData) (old new : String) (idx : ℕ) : TableData :=
  if h : idx < d.rows.length then
    { d with
      pkIndex := Function.update (Function.update d.pkIndex old none) new (some idx)
      pk_lt := moved_pk_lt d.pk_lt old h }
  else d

/-- The text of the primary key of a live row, where it has one. -/
def liveKey (text : LitsText) (schema : TableSchema) (entry : RowEntry) : Option String :=
  if entry.deleted then none else (extractPk schema entry.row).toOption.map text

def indexLive (text : LitsText) (schema : TableSchema) (pkIndex : String → Option ℕ)
    (slot : RowEntry × ℕ) : String → Option ℕ :=
  match liveKey text schema slot.1 with
  | none => pkIndex
  | some key => Function.update pkIndex key (some slot.2)

/-- The positions of the live rows. Of rows with one key the last one counts. -/
def livePkIndex (text : LitsText) (schema : TableSchema) (rows : List RowEntry) :
    String → Option ℕ :=
  rows.zipIdx.foldl (indexLive text schema) fun _ => none

theorem foldl_indexLive_lt {text : LitsText} {schema : TableSchema} {n : ℕ} :
    ∀ (slots : List (RowEntry × ℕ)) (pkIndex : String → Option ℕ),
      (∀ slot ∈ slots, slot.2 < n) → (∀ k i, pkIndex k = some i → i < n) →
      ∀ k i, slots.foldl (indexLive text schema) pkIndex k = some i → i < n
  | [], _, _, h => h
  | slot :: slots, pkIndex, hslots, h => by
    refine foldl_indexLive_lt slots _ (fun s hs => hslots s (List.mem_cons_of_mem _ hs)) ?_
    intro k i hi
    rw [indexLive] at hi
    rcases hkey : liveKey text schema slot.1 with _ | key <;> simp only [hkey] at hi
    · exact h k i hi
    · by_cases hk : k = key
      · subst hk
        rw [Function.update_self] at hi
        cases hi
        exact hslots slot List.mem_cons_self
      · rw [Function.update_of_ne hk] at hi
        exact h k i hi

theorem livePkIndex_lt (text : LitsText) (schema : TableSchema) (rows : List RowEntry) (k : String)
    (i : ℕ) (hi : livePkIndex text schema rows k = some i) : i < rows.length := by
  refine foldl_indexLive_lt rows.zipIdx _ ?_ (by simp) k i hi
  rintro ⟨entry, j⟩ hslot
  exact List.snd_lt_of_mem_zipIdx hslot

def TableData.reindex (text : LitsText) (schema : TableSchema) (d : TableData) : TableData :=
  { d with
    pkIndex := livePkIndex text schema d.rows
    pk_lt := livePkIndex_lt text schema d.rows }

end Rows

namespace Table
variable (text : LitsText)

def mapIndexes (t : Table) (f : SecondaryIndex → SecondaryIndex) : Table :=
  { t with data := { t.data with
      secondaryIndexes := fun k => (t.data.secondaryIndexes k).map f } }

def registerSecondaryIndex (t : Table) (columns included : List String) : Table :=
  let key := secondaryIndexKey columns included
  let built := { t with data := { t.data with
    secondaryIndexes := Function.update t.data.secondaryIndexes key
      (some (buildSecondaryIndex text t.schema.tableVersion columns included t.data.rows)) } }
  match t.data.secondaryIndexes key with
  | none => built
  | some existing => if existing.builtVersion ≠ t.schema.tableVersion then built else t

def ensureMysqlCompatSecondaryIndexes (t : Table) : Table :=
  t.schema.compatIndexes.foldl (fun t index => t.registerSecondaryIndex text index.columns []) t

def rebuildStale (t : Table) : Table :=
  t.mapIndexes fun index =>
    if index.builtVersion ≠ t.schema.tableVersion then
      buildSecondaryIndex text t.schema.tableVersion index.columns index.included t.data.rows
    else index

def rebuildSecondaryIndexesIfStale (t : Table) : Table :=
  (t.ensureMysqlCompatSecondaryIndexes text).rebuildStale text

def secondaryIndexAddRow (t : Table) (idx : ℕ) (row : RowObject) : Table :=
  t.mapIndexes fun index => index.addRow text idx row

def secondaryIndexRemoveRow (t : Table) (idx : ℕ) (row : RowObject) : Table :=
  t.mapIndexes fun index => index.removeRow text idx row

def setSecondaryIndexesBuiltVersion (t : Table) (version : ℕ) : Table :=
  t.mapIndexes fun index => { index with builtVersion := version }

def rowMatchesCompatIndex (row other : RowObject) (columns : List String) : Bool :=
  !columns.isEmpty && columns.all fun column =>
    match row column, other column with
    | some left, some right => !left.isNull && !right.isNull && left == right
    | _, _ => false

def mysqlCompatUniqueKey (columns : List String) (row : RowObject) : Option String :=
  (rowValues columns row).bind fun values =>
    if values.any Lit.isNull || values.isEmpty then none else some (text values)

/-- A live row other than the skipped one has the same values in the columns of the index. -/
def breaksIndex (t : Table) (row : RowObject) (skip : Option ℕ) (index : CompatIndexDef) : Bool :=
  match mysqlCompatUniqueKey text index.columns row with
  | none => false
  | some key =>
    match (t.data.secondaryIndexes (secondaryIndexKey index.columns [])).bind (·.keys key) with
    | none => false
    | some candidates => candidates.any fun idx => skip != some idx &&
        match t.data.rows[idx]? with
        | none => false
        | some entry => !entry.deleted && rowMatchesCompatIndex row entry.row index.columns

/-- The name of the first unique index that the row breaks, once the indexes are current. -/
def mysqlCompatUniqueConflict (t : Table) (row : RowObject) (skip : Option ℕ) : Option String :=
  ((t.schema.compatIndexes.filter (·.unique)).find? (t.breaksIndex text row skip)).map
    CompatIndexDef.name

/-- The row that the primary-key index has for a key, unless it is the skipped one, is live. -/
def primaryKeyConflict (t : Table) (key : String) (skip : Option ℕ) : Bool :=
  (((t.data.pkIndex key).filter fun idx => skip ≠ some idx).bind (t.data.rows[·]?)).any
    fun entry => !entry.deleted

end Table

namespace Table
variable {text : LitsText} {t : Table}

/-- The same schema and rows, and perhaps other secondary indexes. -/
structure SameRows (t t' : Table) : Prop where
  schema : t'.schema = t.schema
  rows : t'.data.rows = t.data.rows
  pkIndex : t'.data.pkIndex = t.data.pkIndex
  residency : t'.data.residency = t.data.residency

theorem SameRows.refl (t : Table) : SameRows t t := ⟨rfl, rfl, rfl, rfl⟩

theorem SameRows.trans {t₁ t₂ t₃ : Table} (h : SameRows t₁ t₂) (h' : SameRows t₂ t₃) :
    SameRows t₁ t₃ where
  schema := h'.schema.trans h.schema
  rows := h'.rows.trans h.rows
  pkIndex := h'.pkIndex.trans h.pkIndex
  residency := h'.residency.trans h.residency

theorem sameRows_mapIndexes (f : SecondaryIndex → SecondaryIndex) : SameRows t (t.mapIndexes f) :=
  ⟨rfl, rfl, rfl, rfl⟩

theorem sameRows_register (columns included : List String) :
    SameRows t (t.registerSecondaryIndex text columns included) := by
  unfold registerSecondaryIndex
  dsimp only
  split
  · exact ⟨rfl, rfl, rfl, rfl⟩
  · split
    · exact ⟨rfl, rfl, rfl, rfl⟩
    · exact SameRows.refl t

theorem sameRows_foldl_register (indexes : List CompatIndexDef) (t : Table) : SameRows t
    (indexes.foldl (fun t index => t.registerSecondaryIndex text index.columns []) t) := by
  induction indexes generalizing t with
  | nil => exact SameRows.refl t
  | cons index indexes ih => exact (sameRows_register index.columns []).trans (ih _)

theorem sameRows_ensure : SameRows t (t.ensureMysqlCompatSecondaryIndexes text) :=
  sameRows_foldl_register _ t

theorem sameRows_rebuild : SameRows t (t.rebuildSecondaryIndexesIfStale text) :=
  sameRows_ensure.trans (sameRows_mapIndexes _)

/-- Every unique or plain index of the schema is there, and every index is built at the version
of the table. -/
structure IndexesCurrent (t : Table) : Prop where
  registered : ∀ index ∈ t.schema.compatIndexes,
    (t.data.secondaryIndexes (secondaryIndexKey index.columns [])).isSome
  built : ∀ k index, t.data.secondaryIndexes k = some index →
    index.builtVersion = t.schema.tableVersion

theorem IndexesCurrent.congr {u : Table} (h : t.IndexesCurrent)
    (hcompat : u.schema.compatIndexes = t.schema.compatIndexes)
    (hversion : u.schema.tableVersion = t.schema.tableVersion)
    (hindexes : u.data.secondaryIndexes = t.data.secondaryIndexes) : u.IndexesCurrent where
  registered := by
    rw [hcompat, hindexes]
    exact h.registered
  built := by
    rw [hversion, hindexes]
    exact h.built

theorem register_of_current (h : t.IndexesCurrent) {index : CompatIndexDef}
    (hmem : index ∈ t.schema.compatIndexes) :
    t.registerSecondaryIndex text index.columns [] = t := by
  obtain ⟨existing, hexisting⟩ := Option.isSome_iff_exists.mp (h.registered index hmem)
  simp [registerSecondaryIndex, hexisting, h.built _ _ hexisting]

theorem mapIndexes_eq_self {f : SecondaryIndex → SecondaryIndex}
    (h : ∀ k index, t.data.secondaryIndexes k = some index → f index = index) :
    t.mapIndexes f = t := by
  have hmap : (fun k => (t.data.secondaryIndexes k).map f) = t.data.secondaryIndexes := by
    funext k
    rcases hk : t.data.secondaryIndexes k with _ | index
    · rfl
    · exact congrArg some (h k index hk)
  rw [mapIndexes, hmap]

theorem foldl_register_of_current (h : t.IndexesCurrent) (indexes : List CompatIndexDef)
    (hsub : indexes ⊆ t.schema.compatIndexes) :
    indexes.foldl (fun t index => t.registerSecondaryIndex text index.columns []) t = t := by
  induction indexes with
  | nil => rfl
  | cons index indexes ih =>
    rw [List.foldl_cons, register_of_current h (hsub List.mem_cons_self)]
    exact ih fun x hx => hsub (List.mem_cons_of_mem _ hx)

/-- Current indexes are left as they are. -/
theorem rebuild_of_current (h : t.IndexesCurrent) :
    t.rebuildSecondaryIndexesIfStale text = t := by
  rw [rebuildSecondaryIndexesIfStale, ensureMysqlCompatSecondaryIndexes,
    foldl_register_of_current h _ (List.Subset.refl _)]
  exact mapIndexes_eq_self fun k index hk => if_neg (not_not_intro (h.built k index hk))

theorem isSome_register (columns included : List String) {k : String}
    (hk : (t.data.secondaryIndexes k).isSome ∨ k = secondaryIndexKey columns included) :
    ((t.registerSecondaryIndex text columns included).data.secondaryIndexes k).isSome := by
  unfold registerSecondaryIndex
  dsimp only
  have hbuilt : (Function.update t.data.secondaryIndexes (secondaryIndexKey columns included)
      (some (buildSecondaryIndex text t.schema.tableVersion columns included t.data.rows)) k).isSome := by
    by_cases hkey : k = secondaryIndexKey columns included
    · subst hkey
      simp
    · rw [Function.update_of_ne hkey]
      exact hk.resolve_right hkey
  split
  · exact hbuilt
  · rename_i existing hexisting
    split
    · exact hbuilt
    · rcases hk with hk | rfl
      · exact hk
      · simp [hexisting]

theorem isSome_foldl_register (indexes : List CompatIndexDef) (t : Table) {k : String}
    (hk : (t.data.secondaryIndexes k).isSome ∨
      ∃ index ∈ indexes, k = secondaryIndexKey index.columns []) :
    ((indexes.foldl (fun t index => t.registerSecondaryIndex text index.columns []) t).data.secondaryIndexes
      k).isSome := by
  induction indexes generalizing t with
  | nil => exact hk.resolve_right (by simp)
  | cons index indexes ih =>
    refine ih _ ?_
    rcases hk with hk | ⟨index', hmem, hkey⟩
    · exact .inl (isSome_register index.columns [] (.inl hk))
    · rcases List.mem_cons.mp hmem with rfl | hmem
      · exact .inl (isSome_register index'.columns [] (.inr hkey))
      · exact .inr ⟨index', hmem, hkey⟩

/-- After the rebuild the indexes are current. -/
theorem rebuild_current (t : Table) : (t.rebuildSecondaryIndexesIfStale text).IndexesCurrent where
  registered index hmem := by
    rw [sameRows_rebuild.schema] at hmem
    have hsome := @isSome_foldl_register text t.schema.compatIndexes t _
      (.inr ⟨index, hmem, rfl⟩)
    simpa [rebuildSecondaryIndexesIfStale, rebuildStale, mapIndexes,
      ensureMysqlCompatSecondaryIndexes] using hsome
  built k index hk := by
    rw [sameRows_rebuild.schema]
    have hschema := (@sameRows_ensure text t).schema
    obtain ⟨index', -, rfl⟩ := Option.map_eq_some_iff.mp hk
    split
    · exact congrArg TableSchema.tableVersion hschema
    · rename_i hversion
      exact (not_not.mp hversion).trans (congrArg TableSchema.tableVersion hschema)

theorem IndexesCurrent.mapIndexes (h : t.IndexesCurrent) {f : SecondaryIndex → SecondaryIndex}
    (hf : ∀ index, (f index).builtVersion = index.builtVersion) :
    (t.mapIndexes f).IndexesCurrent where
  registered index hmem := by
    rw [Table.mapIndexes, Option.isSome_map]
    exact h.registered index hmem
  built k index hk := by
    obtain ⟨index', hindex', rfl⟩ := Option.map_eq_some_iff.mp hk
    exact (hf index').trans (h.built k index' hindex')

end Table

theorem SecondaryIndex.addRow_built (text : LitsText) (index : SecondaryIndex) (idx : ℕ)
    (row : RowObject) : (index.addRow text idx row).builtVersion = index.builtVersion := by
  unfold SecondaryIndex.addRow
  split <;> rfl

theorem SecondaryIndex.removeRow_built (text : LitsText) (index : SecondaryIndex) (idx : ℕ)
    (row : RowObject) : (index.removeRow text idx row).builtVersion = index.builtVersion := by
  unfold SecondaryIndex.removeRow
  split
  · rfl
  · split <;> rfl

theorem Table.IndexesCurrent.addRow {t : Table} (h : t.IndexesCurrent) (text : LitsText) (idx : ℕ)
    (row : RowObject) : (t.secondaryIndexAddRow text idx row).IndexesCurrent :=
  h.mapIndexes fun index => index.addRow_built text idx row

theorem Table.IndexesCurrent.removeRow {t : Table} (h : t.IndexesCurrent) (text : LitsText)
    (idx : ℕ) (row : RowObject) : (t.secondaryIndexRemoveRow text idx row).IndexesCurrent :=
  h.mapIndexes fun index => index.removeRow_built text idx row

end SkeinDB.Tables
