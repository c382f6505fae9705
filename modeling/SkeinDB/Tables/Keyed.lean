import SkeinDB.Tables.Calls
import SkeinDB.Tables.Replay

/-!
# Rows under their keys

The index of the primary key has every live row under the text of its key, as long as the keys
that merges and vector insertions name have one text only: `0.0` and `-0.0` are equal and are
written differently.
-/
namespace SkeinDB.Tables
open SkeinDB.Transition

section Keyed
variable {text : LitsText} {t t' u : Table} {key : String} {i : ℕ} {entry old : RowEntry}

/-- The key of the live row in a position. -/
def Table.keyAt (text : LitsText) (t : Table) (i : ℕ) : Option String :=
  (t.data.rows[i]?).bind (liveKey text t.schema)

/-- Every live row has a key, and is the row that the index has for it. -/
def Table.Keyed (text : LitsText) (t : Table) : Prop :=
  ∀ i entry, t.data.rows[i]? = some entry → entry.deleted = false →
    ∃ key, liveKey text t.schema entry = some key ∧ t.liveAt key = some i

theorem keyAt_eq_some : t.keyAt text i = some key ↔
    ∃ entry, t.data.rows[i]? = some entry ∧ liveKey text t.schema entry = some key :=
  Option.bind_eq_some_iff

theorem live_of_key {schema : TableSchema} (h : liveKey text schema entry = some key) :
    entry.deleted = false := by
  unfold liveKey at h
  split at h
  · cases h
  · rename_i hlive
    exact Bool.eq_false_iff.mpr hlive

theorem liveKey_of_pk {schema : TableSchema} {pk : List Lit} (hlive : entry.deleted = false)
    (hpk : extractPk schema entry.row = .ok pk) : liveKey text schema entry = some (text pk) := by
  rw [liveKey, if_neg (by simp [hlive]), hpk]
  rfl

theorem extractPk_congr {schema schema' : TableSchema} (h : schema'.primaryKey = schema.primaryKey)
    (row : RowObject) : extractPk schema' row = extractPk schema row := by
  rw [extractPk, extractPk, h]

theorem liveKey_congr {schema schema' : TableSchema} (h : schema'.primaryKey = schema.primaryKey)
    (entry : RowEntry) : liveKey text schema' entry = liveKey text schema entry := by
  rw [liveKey, liveKey, extractPk_congr h]

/-- A key has one row. -/
theorem Table.Keyed.unique (h : t.Keyed text) {j : ℕ} (hi : t.keyAt text i = some key)
    (hj : t.keyAt text j = some key) : i = j := by
  obtain ⟨entry, hentry, hkey⟩ := keyAt_eq_some.mp hi
  obtain ⟨entry', hentry', hkey'⟩ := keyAt_eq_some.mp hj
  obtain ⟨k, hk, hliveAt⟩ := h i entry hentry (live_of_key hkey)
  obtain ⟨k', hk', hliveAt'⟩ := h j entry' hentry' (live_of_key hkey')
  cases hk.symm.trans hkey
  cases hk'.symm.trans hkey'
  exact Option.some.inj (hliveAt.symm.trans hliveAt')

theorem Table.Keyed.congr (h : t.Keyed text) (hpk : t'.schema.primaryKey = t.schema.primaryKey)
    (hrows : t'.data.rows = t.data.rows) (hindex : t'.data.pkIndex = t.data.pkIndex) :
    t'.Keyed text := by
  intro i entry hentry hlive
  rw [hrows] at hentry
  obtain ⟨key, hkey, hliveAt⟩ := h i entry hentry hlive
  exact ⟨key, (liveKey_congr hpk entry).trans hkey, (liveAt_congr hrows hindex key).trans hliveAt⟩

theorem Table.Keyed.sameRows (h : t.Keyed text) (hsame : t.SameRows t') : t'.Keyed text :=
  h.congr (by rw [hsame.schema]) hsame.rows hsame.pkIndex

theorem stable_keyed : Stable text (Table.Keyed text) where
  rebuild _ h := h.sameRows Table.sameRows_rebuild

/-- A row that is stored behind the others, under its key. -/
theorem Table.Keyed.push (h : t.Keyed text) (hpk : u.schema.primaryKey = t.schema.primaryKey)
    (hrows : u.data.rows = t.data.rows ++ [entry])
    (hindex : u.data.pkIndex = Function.update t.data.pkIndex key (some t.data.rows.length))
    (hfree : t.liveAt key = none) (hkey : liveKey text t.schema entry = some key) : u.Keyed text := by
  have hlive := live_of_key hkey
  have hliveAt : u.liveAt = Function.update t.liveAt key (some t.data.rows.length) := by
    rw [← @liveAt_storeRow text _ t key hlive]
    funext key'
    exact liveAt_congr hrows hindex key'
  intro i entry' hentry' hlive'
  rw [hrows] at hentry'
  rw [hliveAt, liveKey_congr hpk]
  rcases Nat.lt_trichotomy i t.data.rows.length with hi | hi | hi
  · rw [List.getElem?_append_left hi] at hentry'
    obtain ⟨key', hkey', hat⟩ := h i entry' hentry' hlive'
    refine ⟨key', hkey', ?_⟩
    rw [Function.update_of_ne]
    · exact hat
    · rintro rfl
      rw [hfree] at hat
      cases hat
  · rw [hi, List.getElem?_concat_length] at hentry'
    cases hentry'
    exact ⟨key, hkey, by rw [Function.update_self, hi]⟩
  · rw [List.getElem?_eq_none (by simp; omega)] at hentry'
    cases hentry'

/-- A row that is stored in the place of another, when the index has it for its key and has no
other row for a key of before. -/
theorem Table.Keyed.set (h : t.Keyed text) (hpk : u.schema.primaryKey = t.schema.primaryKey)
    (hrows : u.data.rows = t.data.rows.set i entry)
    (hself : entry.deleted = false →
      ∃ key, liveKey text t.schema entry = some key ∧ u.liveAt key = some i)
    (hothers : ∀ j ≠ i, ∀ key, t.liveAt key = some j → t.keyAt text j = some key →
      u.liveAt key = some j) : u.Keyed text := by
  intro j entry' hentry' hlive'
  rw [hrows] at hentry'
  rw [liveKey_congr hpk]
  by_cases hj : j = i
  · subst hj
    have hlt : j < t.data.rows.length := by
      have hlt := (List.getElem?_eq_some_iff.mp hentry').1
      rwa [List.length_set] at hlt
    rw [List.getElem?_set_self hlt] at hentry'
    cases hentry'
    exact hself hlive'
  · rw [List.getElem?_set_ne (Ne.symm hj)] at hentry'
    obtain ⟨key, hkey, hat⟩ := h j entry' hentry' hlive'
    exact ⟨key, hkey, hothers j hj key hat (keyAt_eq_some.mpr ⟨entry', hentry', hkey⟩)⟩

theorem liveAt_set_of_ne {j : ℕ} (hrows : u.data.rows = t.data.rows.set i entry)
    (hindex : u.data.pkIndex = t.data.pkIndex) (hj : j ≠ i) (h : t.liveAt key = some j) :
    u.liveAt key = some j := by
  obtain ⟨hpk, hlive⟩ := Option.filter_eq_some_iff.mp h
  refine Option.filter_eq_some_iff.mpr ⟨by rw [hindex, hpk], ?_⟩
  rwa [hrows, List.getElem?_set_ne (Ne.symm hj)]

theorem liveAt_set_self (hrows : u.data.rows = t.data.rows.set i entry)
    (hindex : u.data.pkIndex = t.data.pkIndex) (hpk : t.data.pkIndex key = some i)
    (hlive : entry.deleted = false) : u.liveAt key = some i := by
  refine Option.filter_eq_some_iff.mpr ⟨by rw [hindex, hpk], ?_⟩
  rw [hrows, List.getElem?_set_self (t.data.pk_lt key i hpk)]
  simp [hlive]

theorem liveAt_of_noEntry (h : t.data.entryAt key = none) : t.liveAt key = none := by
  rw [Table.liveAt]
  rcases hpk : t.data.pkIndex key with _ | idx
  · rfl
  · have hrow : t.data.rows[idx]? = some _ := List.getElem?_eq_getElem (t.data.pk_lt key idx hpk)
    simp [TableData.entryAt, hpk, hrow] at h

theorem free_of_noConflict (h : t.primaryKeyConflict key none = false) : t.liveAt key = none := by
  rw [conflict_eq] at h
  rcases hat : t.liveAt key with _ | i
  · rfl
  · rw [hat] at h
    cases h

theorem liveAt_of_noConflict {j : ℕ} (h : t.primaryKeyConflict key (some i) = false)
    (hat : t.liveAt key = some j) : j = i := by
  rw [conflict_eq, hat] at h
  by_contra hne
  simp [Ne.symm hne] at h

end Keyed

section Statements
variable {st : Stamp} {key : TableKey} {t : Table}

theorem checkInsert_ok {text : LitsText} {row : RowObject} {pk : List Lit}
    (h : checkInsert text t row = .ok pk) :
    extractPk t.schema row = .ok pk ∧ t.primaryKeyConflict (text pk) none = false := by
  unfold checkInsert at h
  split at h
  · cases h
  · obtain ⟨pk', hpk, h⟩ := Format.bind_eq_ok h
    split at h
    · cases h
    · rename_i hconflict
      cases h
      exact ⟨hpk, Bool.eq_false_iff.mpr hconflict⟩

theorem keyed_insertRow (returning : Option (List String)) (p : InsertProgress) (row : RowObject) :
    Preserves (Table.Keyed st.ext.text) (insertRow st key returning p row) := by
  intro t hkeyed
  unfold insertRow
  rw [bind_of_ok (m := get) rfl]
  dsimp only
  rw [bind_of_ok (m := set _) rfl]
  generalize applyDefaultsAndAutoinc t.schema row p.lastInsertId = fill
  have hcounters : (t.withCounters fill.autoIncNext).Keyed st.ext.text := hkeyed.congr rfl rfl rfl
  rcases notNullViolation t.schema fill.row with _ | column
  · dsimp only
    rw [bind_of_ok (m := modify _) rfl, bind_of_ok (m := get) rfl]
    have hrebuilt := stable_keyed.rebuild _ hcounters
    set t₁ := Table.rebuildSecondaryIndexesIfStale st.ext.text (t.withCounters fill.autoIncNext)
    rcases hcheck : checkInsert st.ext.text t₁ fill.row with e | pk
    · exact hrebuilt
    · obtain ⟨hpk, hconflict⟩ := checkInsert_ok hcheck
      exact hrebuilt.push rfl rfl rfl (free_of_noConflict hconflict) (liveKey_of_pk rfl hpk)
  · exact hcounters

theorem keyed_insertRows (rows : List RowObject) (returning : Option (List String)) :
    Preserves (Table.Keyed st.ext.text) (insertRows st key rows returning) := by
  unfold insertRows
  refine Preserves.bind (preserves_modify fun t ht => stable_keyed.rebuild t ht) fun _ => ?_
  refine Preserves.bind (Preserves.foldlM (fun p row => keyed_insertRow returning p row) rows {})
    fun p => ?_
  refine Preserves.bind (preserves_modify fun t ht => ht.congr rfl rfl rfl) fun _ => ?_
  exact Preserves.bind (fun t ht => ht) fun _ => preserves_pure _

theorem keyed_updateRow (u : Update) (idx : ℕ) :
    Preserves (Table.Keyed st.ext.text) (updateRow st key u idx) := by
  intro t hkeyed
  unfold updateRow
  rw [bind_of_ok (m := get) rfl]
  rcases hrow : t.data.rows[idx]? with _ | entry
  · exact hkeyed
  cases hdel : entry.deleted
  on_goal 2 =>
    simp only [hdel]
    exact hkeyed
  rcases hmatch : u.matches idx entry.row with e | (_ | _)
  · simp only [hdel, hmatch]
    exact hkeyed
  · simp only [hdel, hmatch]
    exact hkeyed
  rcases hcheck : checkUpdate st.ext u t idx entry with e | ⟨newRow, oldKey⟩
  · simp only [hdel, hmatch, hcheck]
    exact hkeyed
  simp only [hdel, hmatch, hcheck]
  change Table.Keyed _ (final (((modify (Table.rebuildSecondaryIndexesIfStale st.ext.text)
    >>= _) : EStateM _ _ _) t))
  rw [bind_of_ok (m := modify _) rfl, bind_of_ok (m := get) rfl]
  have hsame := @Table.sameRows_rebuild st.ext.text t
  have hrebuilt := stable_keyed.rebuild t hkeyed
  set t₁ := Table.rebuildSecondaryIndexesIfStale st.ext.text t
  rcases Table.mysqlCompatUniqueConflict st.ext.text t₁ newRow (some idx) with _ | index
  on_goal 2 => exact hrebuilt
  rcases hpk : extractPk t₁.schema newRow with e | newPk
  · exact hrebuilt
  obtain ⟨⟨oldPk, hold, rfl⟩, newPk', hnew, hconflict⟩ := checkUpdate_ok hcheck
  rw [hsame.schema, hnew] at hpk
  cases hpk
  rw [← hsame.rows] at hrow
  rw [conflict_eq, ← liveAt_congr hsame.rows hsame.pkIndex, ← conflict_eq] at hconflict
  have hlt := (List.getElem?_eq_some_iff.mp hrow).1
  have hat : t₁.liveAt (st.ext.text oldPk) = some idx := by
    obtain ⟨oldKey, hkey, hat⟩ := hrebuilt idx entry hrow hdel
    rw [liveKey_of_pk hdel (by rw [hsame.schema]; exact hold)] at hkey
    cases hkey
    exact hat
  set entry' := st.entry t₁.schema idx newRow false
  have hindex := @liveAt_rewriteRow st.ext.text _ entry' t₁ _ hrow hdel rfl
    (st.ext.text oldPk) (st.ext.text newPk)
  refine hrebuilt.set (congrArg TableSchema.primaryKey (schema_rewriteRow t₁ entry.row _ _))
    (rows_rewriteRow t₁ entry.row _ _ hlt) (fun _ => ⟨st.ext.text newPk, ?_, ?_⟩) fun j hj k hk _ => ?_
  · exact liveKey_of_pk rfl (by rw [hsame.schema]; exact hnew)
  · change (Table.rewriteRow st.ext.text t₁ idx entry.row entry' _ _).liveAt _ = _
    rw [hindex]
    split
    · rename_i hsameKey
      rw [← hsameKey]
      exact hat
    · rw [Function.update_self]
  · change (Table.rewriteRow st.ext.text t₁ idx entry.row entry' _ _).liveAt _ = _
    rw [hindex]
    split
    · exact hk
    · rw [Function.update_of_ne, Function.update_of_ne]
      · exact hk
      · rintro rfl
        rw [hat] at hk
        exact hj (Option.some.inj hk).symm
      · rintro rfl
        exact hj (liveAt_of_noConflict hconflict hk)

theorem keyed_deleteRow (f : Filter) (idx : ℕ) :
    Preserves (Table.Keyed st.ext.text) (deleteRow st key f idx) := by
  intro t hkeyed
  unfold deleteRow
  rw [bind_of_ok (m := get) rfl]
  rcases hrow : t.data.rows[idx]? with _ | entry
  · exact hkeyed
  cases hdel : entry.deleted
  on_goal 2 =>
    simp only [hdel]
    exact hkeyed
  rcases hmatch : f.matches idx entry.row with e | (_ | _) <;> simp only [hdel, hmatch]
  · exact hkeyed
  · exact hkeyed
  · exact hkeyed.set rfl rfl (fun hlive => by cases hlive) fun j hj k hk _ =>
      liveAt_set_of_ne rfl rfl hj hk

theorem keyed_sweepRows {visit : ℕ → EStateM String Table (Option (List WalRowRecord))}
    (h : ∀ idx, Preserves (Table.Keyed st.ext.text) (visit idx)) (limit : Option ℕ) :
    Preserves (Table.Keyed st.ext.text) (sweepRows st limit visit) := by
  unfold sweepRows
  refine Preserves.bind (preserves_modify fun t ht => stable_keyed.rebuild t ht) fun _ => ?_
  refine Preserves.bind (fun t ht => ht) fun t => ?_
  refine Preserves.bind (Preserves.scan (fun idx _ => h idx)) fun affected => ?_
  split
  · exact Preserves.bind (preserves_modify fun t ht => ht.congr rfl rfl rfl) fun _ => preserves_pure _
  · exact preserves_pure _

end Statements

section Named
variable {text : LitsText} {schema : TableSchema} {pk : List Lit} {row row' : RowObject}

/-- Values that a row may have where a key is named: the same, or equal by the comparison of
values. -/
def Lit.Names (value named : Lit) : Prop := value = named ∨ (value == named) = true

/-- A key is written in one way. -/
def SoleText (text : LitsText) (pk : List Lit) : Prop :=
  ∀ pk', List.Forall₂ Lit.Names pk' pk → text pk' = text pk

theorem ensurePkValues_slots {slots : List (String × Lit)}
    (h : slots.foldlM (fun row (slot : String × Lit) =>
      match row slot.1 with
      | none => .ok (row.insert slot.1 slot.2)
      | some existing =>
        if existing != slot.2 then .error ("invalid_request: primary key mismatch for " ++ slot.1)
        else .ok row) row = (.ok row' : Except String RowObject)) :
    (∀ c v, row c = some v → row' c = some v) ∧
      ∀ slot ∈ slots, ∃ v, row' slot.1 = some v ∧ v.Names slot.2 := by
  induction slots generalizing row with
  | nil =>
    cases h
    exact ⟨fun c v hv => hv, fun slot hslot => absurd hslot List.not_mem_nil⟩
  | cons slot slots ih =>
    rw [List.foldlM_cons] at h
    obtain ⟨row₁, hfirst, h⟩ := Format.bind_eq_ok h
    obtain ⟨hkeeps, hslots⟩ := ih h
    have hslot : (∀ c v, row c = some v → row₁ c = some v) ∧
        ∃ v, row₁ slot.1 = some v ∧ v.Names slot.2 := by
      rcases hold : row slot.1 with _ | existing <;> simp only [hold] at hfirst
      · cases hfirst
        refine ⟨fun c v hv => ?_, slot.2, by rw [RowObject.insert, Function.update_self], .inl rfl⟩
        have hc : c ≠ slot.1 := by
          rintro rfl
          rw [hold] at hv
          cases hv
        rw [RowObject.insert, Function.update_of_ne hc]
        exact hv
      · split at hfirst
        · cases hfirst
        · rename_i hequal
          cases hfirst
          refine ⟨fun c v hv => hv, existing, hold, .inr ?_⟩
          simpa [bne] using hequal
    obtain ⟨hkeeps₁, v, hv, hnames⟩ := hslot
    refine ⟨fun c v hv => hkeeps c v (hkeeps₁ c v hv), fun slot' hslot' => ?_⟩
    rcases List.mem_cons.mp hslot' with rfl | hslot'
    · exact ⟨v, hkeeps _ v hv, hnames⟩
    · exact hslots slot' hslot'

theorem mapM_slots {columns : List String} (hlength : columns.length = pk.length)
    (h : ∀ slot ∈ columns.zip pk, ∃ v, row slot.1 = some v ∧ Lit.Names v slot.2) :
    ∃ pk', (columns.mapM fun k => match row k with
      | none => .error ("missing pk column: " ++ k)
      | some v => .ok v) = (.ok pk' : Except String (List Lit)) ∧
      List.Forall₂ Lit.Names pk' pk := by
  induction columns generalizing pk with
  | nil =>
    cases pk with
    | nil => exact ⟨[], rfl, .nil⟩
    | cons _ _ => cases hlength
  | cons column columns ih =>
    cases pk with
    | nil => cases hlength
    | cons value pk =>
      obtain ⟨pk', hpk', hnames⟩ := ih (Nat.succ.inj hlength) fun slot hslot =>
        h slot (List.mem_cons_of_mem _ hslot)
      obtain ⟨v, hv, hname⟩ := h (column, value) List.mem_cons_self
      refine ⟨v :: pk', ?_, .cons hname hnames⟩
      exact mapM_ok_cons.mpr ⟨v, pk', by simp only [hv], hpk', rfl⟩

/-- The row has the key that was named, as far as values are compared. -/
theorem ensurePkValues_pk (hne : schema.primaryKey ≠ [])
    (h : ensurePkValues schema pk row = .ok row') :
    ∃ pk', extractPk schema row' = .ok pk' ∧ List.Forall₂ Lit.Names pk' pk := by
  unfold ensurePkValues at h
  split at h
  · cases h
  · rename_i hlength
    rw [extractPk, if_neg hne]
    exact mapM_slots (not_not.mp hlength) (ensurePkValues_slots h).2

end Named

section Stored
variable {st : Stamp} {key : TableKey} {t t' : Table}

theorem mapM_agrees {α β : Type} {f g : α → Except String β} {xs : List α}
    (h : ∀ x ∈ xs, f x = g x) : xs.mapM f = xs.mapM g := by
  induction xs with
  | nil => rfl
  | cons x xs ih =>
    rw [List.mapM_cons, List.mapM_cons, h x List.mem_cons_self,
      ih fun y hy => h y (List.mem_cons_of_mem _ hy)]

theorem extractPk_agrees {schema : TableSchema} {row row' : RowObject}
    (h : ∀ c ∈ schema.primaryKey, row' c = row c) : extractPk schema row' = extractPk schema row := by
  rw [extractPk, extractPk]
  split
  · rfl
  · refine mapM_agrees fun c hc => ?_
    rw [h c hc]

theorem value_of_extractPk {schema : TableSchema} {row : RowObject} {pk : List Lit}
    (h : extractPk schema row = .ok pk) {c : String} (hc : c ∈ schema.primaryKey) :
    ∃ v, row c = some v := by
  unfold extractPk at h
  split at h
  · cases h
  · rcases hrow : row c with _ | v
    · exfalso
      generalize schema.primaryKey = columns at h hc
      induction columns generalizing pk with
      | nil => cases hc
      | cons column columns ih =>
        obtain ⟨y, rest, hy, hrest, -⟩ := mapM_ok_cons.mp h
        rcases List.mem_cons.mp hc with rfl | hc
        · rw [hrow] at hy
          cases hy
        · exact ih hrest hc
    · exact ⟨v, rfl⟩

theorem foldl_fillColumn_value {defaults : String → Option Lit} (columns : List ColumnSchema)
    {f : Fill} {c : String} {v : Lit} (h : f.row c = some v) :
    (columns.foldl (fillColumn defaults) f).row c = some v := by
  induction columns generalizing f with
  | nil => exact h
  | cons col columns ih =>
    refine ih ?_
    by_cases hsome : (f.row col.name).isSome
    · rw [fillColumn_present hsome]
      exact h
    · have hc : c ≠ col.name := by
        rintro rfl
        rw [h] at hsome
        exact hsome rfl
      unfold fillColumn
      rw [if_neg hsome]
      split
      · exact (Function.update_of_ne hc _ _).trans h
      · split
        · exact (Function.update_of_ne hc _ _).trans h
        · split
          · exact (Function.update_of_ne hc _ _).trans h
          · exact h

/-- What a vector insertion asks for to leave the rows under their keys. -/
structure VectorInsertParams.Clean (text : LitsText) (t : Table) (params : VectorInsertParams) :
    Prop where
  column : params.column ∉ t.schema.primaryKey
  rows : ∀ row ∈ params.rows, ¬row.namesDeleted text t ∧ SoleText text row.pk

theorem keyed_writeVector {params : VectorInsertParams} {p p' : VectorProgress}
    {row : VectorInsertRow} (hkeyed : t.Keyed st.ext.text) (hne : t.schema.primaryKey ≠ [])
    (hcolumn : params.column ∉ t.schema.primaryKey) (hlive : ¬row.namesDeleted st.ext.text t)
    (hsole : SoleText st.ext.text row.pk) (h : writeVector st params p row t = .ok (p', t')) :
    t'.Keyed st.ext.text ∧ t'.schema.primaryKey = t.schema.primaryKey := by
  unfold writeVector at h
  rcases hpk : t.data.pkIndex (st.ext.text row.pk) with _ | idx
  · simp only [hpk, Option.bind_none] at h
    obtain ⟨new, hnew, h⟩ := Format.bind_eq_ok h
    cases h
    obtain ⟨ensured, hensured, hnew⟩ := Format.bind_eq_ok hnew
    cases hnew
    obtain ⟨pk', hpk', hnames⟩ := ensurePkValues_pk hne hensured
    refine ⟨hkeyed.push rfl rfl rfl (by simp [Table.liveAt, hpk]) ?_, rfl⟩
    rw [← hsole pk' hnames]
    refine liveKey_of_pk rfl (hpk' ▸ extractPk_agrees fun c hc => ?_)
    have hc' : c ≠ params.column := by
      rintro rfl
      exact hcolumn hc
    obtain ⟨v, hv⟩ := value_of_extractPk hpk' hc
    rw [hv]
    refine foldl_fillColumn_value _ ?_
    exact (Function.update_of_ne hc' _ _).trans hv
  · obtain ⟨old, hold⟩ : ∃ old, t.data.rows[idx]? = some old :=
      ⟨_, List.getElem?_eq_getElem (t.data.pk_lt _ _ hpk)⟩
    simp only [hpk, Option.bind_some, hold, Option.map_some] at h
    have hdel : old.deleted = false := by
      by_contra hdel
      refine hlive ⟨idx, old, ?_, Bool.not_eq_false _ |>.mp hdel⟩
      simp [TableData.entryAt, hpk, hold]
    split at h
    · cases h
    · cases h
      refine ⟨hkeyed.set rfl rfl (fun _ => ?_) fun j hj k hk _ => liveAt_set_of_ne rfl rfl hj hk, rfl⟩
      obtain ⟨k, hkey, hat⟩ := hkeyed idx old hold hdel
      refine ⟨k, ?_, ?_⟩
      · rw [← hkey, liveKey, liveKey, hdel]
        refine congrArg (fun pk => if false = true then none else (Except.toOption pk).map st.ext.text)
          (extractPk_agrees fun c hc => ?_)
        refine Function.update_of_ne ?_ _ _
        rintro rfl
        exact hcolumn hc
      · exact liveAt_set_self rfl rfl (Option.filter_eq_some_iff.mp hat).1 rfl

theorem vectorRow_final {params : VectorInsertParams} (p : VectorProgress) (row : VectorInsertRow) :
    final (vectorRow st params p row t) = t ∨
      ∃ p' t', writeVector st params p row t = .ok (p', t') ∧
        final (vectorRow st params p row t) = t' := by
  unfold vectorRow
  rw [bind_of_ok (m := get) rfl]
  split
  · exact .inl rfl
  rcases embeddingRef row.embedding with e | ref
  · exact .inl rfl
  rcases hwrite : writeVector st params p row t with e | ⟨p', t'⟩
  · exact .inl rfl
  refine .inr ⟨p', t', rfl, ?_⟩
  dsimp only
  rw [bind_of_ok (m := set _) rfl]
  rcases embeddingIdForLit st.ext row.embedding with e | id <;> rfl

theorem keyed_vectorRows {params : VectorInsertParams} (hkeyed : t.Keyed st.ext.text)
    (hclean : params.Clean st.ext.text t) :
    (final (vectorRows st params t)).Keyed st.ext.text := by
  unfold vectorRows
  rw [bind_of_ok (m := get) rfl]
  rcases hcheck : checkVectorTable t.schema params.column with e | ⟨⟩
  · exact hkeyed
  have hne : t.schema.primaryKey ≠ [] := by
    intro hnil
    rw [checkVectorTable, if_pos hnil] at hcheck
    cases hcheck
  have hfold : ∀ (rows : List VectorInsertRow) (p : VectorProgress) (t₁ : Table),
      rows ⊆ params.rows → t₁.Keyed st.ext.text → t₁.schema.primaryKey = t.schema.primaryKey →
      (∀ row ∈ params.rows, ¬row.namesDeleted st.ext.text t₁) →
      (final (rows.foldlM (vectorRow st params) p t₁)).Keyed st.ext.text := by
    intro rows
    induction rows with
    | nil => exact fun p t₁ _ hkeyed _ _ => hkeyed
    | cons row rows ih =>
      intro p t₁ hsub hkeyed hpk hlive
      have hrow := hsub List.mem_cons_self
      have hfirst : (final (vectorRow st params p row t₁)).Keyed st.ext.text ∧
          (final (vectorRow st params p row t₁)).schema.primaryKey = t.schema.primaryKey := by
        rcases vectorRow_final p row with hfinal | ⟨p', t', hwrite, hfinal⟩ <;> rw [hfinal]
        · exact ⟨hkeyed, hpk⟩
        · have hwritten := keyed_writeVector hkeyed (hpk ▸ hne) (hpk ▸ hclean.column)
            (hlive row hrow) (hclean.rows row hrow).2 hwrite
          exact ⟨hwritten.1, hwritten.2.trans hpk⟩
      rw [List.foldlM_cons]
      rcases hrun : vectorRow st params p row t₁ with ⟨p', t₂⟩ | ⟨e, t₂⟩ <;> rw [hrun] at hfirst
      · rw [bind_of_ok hrun]
        exact ih p' t₂ (fun row' hrow' => hsub (List.mem_cons_of_mem _ hrow')) hfirst.1 hfirst.2
          fun row' hrow' hnamed => hlive row' hrow' (vectorRow_namesDeleted hrun hnamed)
      · rw [bind_of_error hrun]
        exact hfirst.1
  have hrows := hfold params.rows {} t (List.Subset.refl _) hkeyed rfl fun row hrow =>
    (hclean.rows row hrow).1
  refine final_bind_of hrows fun p => ?_
  split
  · exact Preserves.bind (preserves_modify fun t ht => ht.congr rfl rfl rfl) fun _ => preserves_pure _
  · exact preserves_pure _

theorem keyed_mergeInto {m : MergeApplyParams} {idx : ℕ} {entry : RowEntry} {merged row : RowObject}
    (hkeyed : t.Keyed st.ext.text) (hne : t.schema.primaryKey ≠ [])
    (hentry : t.data.entryAt (st.ext.text m.pk) = some (idx, entry))
    (hsole : SoleText st.ext.text m.pk) (hrow : ensurePkValues t.schema m.pk merged = .ok row) :
    (t.mergeInto st idx entry row).Keyed st.ext.text := by
  obtain ⟨hindex, -⟩ := entryAt_eq_some hentry
  obtain ⟨pk', hpk', hnames⟩ := ensurePkValues_pk hne hrow
  refine hkeyed.set rfl rfl (fun _ => ⟨st.ext.text m.pk, ?_, ?_⟩) fun j hj k hk _ =>
    liveAt_set_of_ne rfl rfl hj hk
  · rw [← hsole pk' hnames]
    exact liveKey_of_pk rfl hpk'
  · exact liveAt_set_self rfl rfl hindex rfl

theorem keyed_mergeTable {m : MergeApplyParams} {policy : MergePolicy} {result : MergeApplyResult}
    (hkeyed : t.Keyed st.ext.text) (hsole : SoleText st.ext.text m.pk)
    (h : mergeTable st key m policy t = .ok (result, t')) : t'.Keyed st.ext.text := by
  rcases mergeTable_cases h with rfl | ⟨hne, ⟨idx, entry, merged, row, hentry, hinto, rfl⟩ |
    ⟨hnone, row, hrow, rfl⟩⟩
  · exact hkeyed
  · exact keyed_mergeInto hkeyed hne hentry hsole hinto.keyed
  · obtain ⟨pk', hpk', hnames⟩ := ensurePkValues_pk hne hrow
    refine hkeyed.push rfl rfl rfl (liveAt_of_noEntry hnone) ?_
    rw [← hsole pk' hnames]
    exact liveKey_of_pk rfl hpk'

/-- A write names no deleted row with a vector, and its keys have one text each. -/
def Write.Clean (text : LitsText) (t : Table) : Write → Prop
  | .data (.vectorInsert params) => params.Clean text t
  | .merge m => SoleText text m.pk
  | .data _ => True

theorem Write.keyed_part (w : Write) (hkeyed : t.Keyed st.ext.text)
    (hclean : w.Clean st.ext.text t) : (final (w.part st key t)).Keyed st.ext.text := by
  cases w with
  | data stmt =>
    cases stmt with
    | insert rows returning =>
      rw [Write.part, final_map]
      exact keyed_insertRows rows returning t hkeyed
    | update u =>
      rw [Write.part, final_map]
      exact keyed_sweepRows (fun idx => keyed_updateRow u idx) u.limit t hkeyed
    | delete f =>
      rw [Write.part, final_map]
      exact keyed_sweepRows (fun idx => keyed_deleteRow f idx) f.limit t hkeyed
    | vectorInsert params =>
      rw [Write.part]
      split
      · exact hkeyed
      · rw [final_map]
        exact keyed_vectorRows hkeyed hclean
  | merge m =>
    rw [Write.part]
    rcases m.policy with e | policy
    · exact hkeyed
    · dsimp only
      rcases hrun : mergeTable st key m policy t with e | ⟨result, t'⟩
      · exact hkeyed
      · exact keyed_mergeTable hkeyed hclean hrun

end Stored

end SkeinDB.Tables
