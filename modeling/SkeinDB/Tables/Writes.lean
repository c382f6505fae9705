import SkeinDB.Tables.Atomicity
import SkeinDB.Tables.Edits
import SkeinDB.Tables.Alike
import SkeinDB.Tables.Maintenance

/-!
# The edits of each statement

`skeindb/src/engine.rs`: `data_insert`, `data_update_exprs`, `data_delete`, `merge_apply` and
`vector_insert` on the table that they borrow, as edits of its rows.
-/
namespace SkeinDB.Tables
open SkeinDB.Transition

section Merging

/-- `merge_rows_with_wasm`, where `columns` has the columns of the rows in order. A column that
both rows have gets what its merge function makes of the two values. -/
def mergeRows (value : String → Lit → Lit → Except String Lit) (columns : List String)
    (current incoming : RowObject) : Except String RowObject :=
  columns.foldlM (fun merged column =>
    match current column, incoming column with
    | some c, some i => do return merged.insert column (← value column c i)
    | some c, none => return merged.insert column c
    | none, some i => return merged.insert column i
    | none, none => return merged) fun _ => none

/-- The merge goes by the columns that the rows have. -/
def MergeApplyParams.ByColumn (m : MergeApplyParams) : Prop :=
  ∀ policy, m.policy = .ok policy → ∃ value columns, policy.merge = mergeRows value columns ∧
    ∀ c, (m.incoming c).isSome → c ∈ columns

variable {value : String → Lit → Lit → Except String Lit} {columns : List String}
  {current incoming merged row : RowObject}

theorem foldlM_keeps {α β : Type} {f : β → α → Except String β} {P : β → Prop} (items : List α)
    (h : ∀ b, ∀ a ∈ items, ∀ b', P b → f b a = .ok b' → P b') {b b' : β} (hb : P b)
    (hrun : items.foldlM f b = .ok b') : P b' := by
  induction items generalizing b with
  | nil =>
    cases hrun
    exact hb
  | cons a items ih =>
    rw [List.foldlM_cons] at hrun
    obtain ⟨b₁, hfirst, hrun⟩ := Format.bind_eq_ok hrun
    exact ih (fun b a ha => h b a (List.mem_cons_of_mem _ ha))
      (h b a List.mem_cons_self b₁ hb hfirst) hrun

theorem insert_eq_some {column c : String} {value v : Lit}
    (h : row.insert column value c = some v) : (c = column ∧ v = value) ∨ row c = some v := by
  by_cases hc : c = column
  · subst hc
    rw [RowObject.insert, Function.update_self] at h
    exact .inl ⟨rfl, (Option.some.inj h).symm⟩
  · rw [RowObject.insert, Function.update_of_ne hc] at h
    exact .inr h

theorem mergeColumn_value {column : String}
    (hrow : ∀ c v, row c = some v → (incoming c).isSome ∨ current c = some v)
    (hstep : (match current column, incoming column with
      | some c, some i => do return row.insert column (← value column c i)
      | some c, none => return row.insert column c
      | none, some i => return row.insert column i
      | none, none => return row : Except String RowObject) = .ok merged) (c : String) (v : Lit)
    (hv : merged c = some v) : (incoming c).isSome ∨ current c = some v := by
  rcases hcur : current column with _ | old <;> rcases hinc : incoming column with _ | new <;>
    simp only [hcur, hinc] at hstep
  · cases hstep
    exact hrow c v hv
  · cases hstep
    rcases insert_eq_some hv with ⟨rfl, -⟩ | hv
    · exact .inl (by simp [hinc])
    · exact hrow c v hv
  · cases hstep
    rcases insert_eq_some hv with ⟨rfl, rfl⟩ | hv
    · exact .inr hcur
    · exact hrow c v hv
  · obtain ⟨merged, -, hstep⟩ := Format.bind_eq_ok hstep
    cases hstep
    rcases insert_eq_some hv with ⟨rfl, -⟩ | hv
    · exact .inl (by simp [hinc])
    · exact hrow c v hv

/-- A value of the merged row that does not come from the incoming one was there before. -/
theorem mergeRows_value (h : mergeRows value columns current incoming = .ok merged) (c : String)
    (v : Lit) (hv : merged c = some v) : (incoming c).isSome ∨ current c = some v := by
  refine foldlM_keeps (P := fun merged => ∀ c v, merged c = some v →
    (incoming c).isSome ∨ current c = some v) columns ?_ ?_ h c v hv
  · intro row column _ row' hrow hstep
    exact mergeColumn_value hrow hstep
  · intro c v hnone
    cases hnone

/-- Nothing is merged into an empty row: it takes what comes in. -/
theorem mergeRows_empty (columns : List String) :
    mergeRows value columns (fun _ => none) incoming =
      .ok fun c => if c ∈ columns then incoming c else none := by
  have hfold : ∀ (columns : List String) (row : RowObject), columns.foldlM (fun merged column =>
      match (none : Option Lit), incoming column with
      | some c, some i => do return merged.insert column (← value column c i)
      | some c, none => return merged.insert column c
      | none, some i => return merged.insert column i
      | none, none => return merged) row = (.ok fun c =>
        if c ∈ columns ∧ (incoming c).isSome then incoming c else row c : Except String RowObject) := by
    intro columns
    induction columns with
    | nil =>
      intro row
      simp
      rfl
    | cons column columns ih =>
      intro row
      rw [List.foldlM_cons]
      rcases hinc : incoming column with _ | new
      · refine (ih row).trans (congrArg Except.ok ?_)
        funext c
        by_cases hc : c = column
        · subst hc
          simp [hinc]
        · simp [hc]
      · refine (ih (row.insert column new)).trans (congrArg Except.ok ?_)
        funext c
        by_cases hc : c = column
        · subst hc
          by_cases hmem : c ∈ columns <;> simp [hinc, hmem, RowObject.insert]
        · simp [hc, RowObject.insert]
  refine (hfold columns _).trans (congrArg Except.ok ?_)
  funext c
  by_cases hmem : c ∈ columns
  · rcases hinc : incoming c with _ | new <;> simp [hmem]
  · simp [hmem]

/-- The primary-key columns are filled in, and the others are left alone. -/
theorem ensurePkValues_value {schema : TableSchema} {pk : List Lit}
    (h : ensurePkValues schema pk row = .ok merged) (c : String) (v : Lit)
    (hv : merged c = some v) : c ∈ schema.primaryKey ∨ row c = some v := by
  unfold ensurePkValues at h
  split at h
  · cases h
  · refine foldlM_keeps (P := fun merged : RowObject => ∀ v, merged c = some v →
      c ∈ schema.primaryKey ∨ row c = some v) (schema.primaryKey.zip pk) ?_ (fun v hv => .inr hv) h
      v hv
    rintro row₁ ⟨col, value⟩ hslot row₂ hrow hstep v hv
    dsimp only at hstep
    split at hstep
    · cases hstep
      rcases insert_eq_some hv with ⟨rfl, -⟩ | hv
      · exact .inl (List.of_mem_zip hslot).1
      · exact hrow v hv
    · split at hstep
      · cases hstep
      · cases hstep
        exact hrow v hv

end Merging

section Rows
variable {st : Stamp} {key : TableKey} {P : RowEdit → Prop} {t t' : Table}

theorem sameDefinition_withCounters (t : Table) (counters : String → Option ℕ) :
    SameDefinition t (t.withCounters counters) := ⟨rfl, rfl, rfl, rfl, rfl⟩

theorem sameDefinition_bump (t : Table) : SameDefinition t (bump t) := ⟨rfl, rfl, rfl, rfl, rfl⟩

theorem sameDefinition_rewriteRow {text : LitsText} (t : Table) (idx : ℕ) (old : RowObject)
    (entry : RowEntry) (oldKey newKey : String) :
    SameDefinition t (t.rewriteRow text idx old entry oldKey newKey) := by
  unfold Table.rewriteRow
  dsimp only
  split
  · exact ⟨rfl, rfl, rfl, rfl, rfl⟩
  · refine ⟨rfl, rfl, rfl, rfl, ?_⟩
    unfold TableData.movePk
    split <;> rfl

/-- An inserted row is stored as the next one. -/
theorem insertRow_edits (hP : ∀ e : RowEdit, e.kind = .insert → P e)
    (returning : Option (List String)) (p : InsertProgress) (row : RowObject) :
    EditsResult st.now P p.walRecords.length (fun p => p.walRecords.length) t
      (insertRow st key returning p row t) := by
  unfold insertRow
  rw [bind_of_ok (m := get) rfl]
  dsimp only
  rw [bind_of_ok (m := set _) rfl]
  generalize applyDefaultsAndAutoinc t.schema row p.lastInsertId = fill
  have hcounters := sameDefinition_withCounters t fill.autoIncNext
  rcases notNullViolation t.schema fill.row with _ | column
  · dsimp only
    rw [bind_of_ok (m := modify _) rfl, bind_of_ok (m := get) rfl]
    have hsame := @Table.sameRows_rebuild st.ext.text (t.withCounters fill.autoIncNext)
    rcases checkInsert st.ext.text _ fill.row with e | pk
    · exact ⟨_, editsTo_of_same (hcounters.trans hsame.sameDefinition) hsame.rows le_rfl⟩
    · have hdone : (p.walRecords ++ [WalRowRecord.fromEntry key pk (st.entry
          (Table.rebuildSecondaryIndexesIfStale st.ext.text (t.withCounters fill.autoIncNext)).schema
          p.walRecords.length fill.row false)]).length = p.walRecords.length + 1 := by simp
      change Table.EditsTo st.now P _ t _ (List.length _)
      rw [hdone]
      set t₁ := Table.rebuildSecondaryIndexesIfStale st.ext.text (t.withCounters fill.autoIncNext)
      set entry := st.entry t₁.schema p.walRecords.length fill.row false
      have hrows : t₁.data.rows = t.data.rows := hsame.rows
      refine editsTo_of_edit (e := ⟨.insert, st.now p.walRecords.length, t.data.rows.length, entry,
        Set.univ⟩) ?_ (hP _ rfl) rfl ⟨rfl, rfl, rfl, fun c _ => Set.mem_univ c⟩ ?_
      · exact (hcounters.trans hsame.sameDefinition).trans ⟨rfl, rfl, rfl, rfl, rfl⟩
      · exact congrArg (· ++ [entry]) hrows
  · exact ⟨_, editsTo_of_same hcounters rfl le_rfl⟩

theorem insertRows_edits (hP : ∀ e : RowEdit, e.kind = .insert → P e) (rows : List RowObject)
    (returning : Option (List String)) :
    ∃ hi, t.EditsTo st.now P 0 (final (insertRows st key rows returning t)) hi := by
  unfold insertRows
  refine @EditsResult.final _ _ _ _ _ (fun done => done.1.walRecords.length) _ ?_
  refine (EditsResult.modify Table.sameRows_rebuild.sameDefinition
    Table.sameRows_rebuild.rows).bind fun _ t₁ _ => ?_
  refine (@EditsResult.foldlM _ _ _ _ _
    (fun p : InsertProgress => p.walRecords.length)
    (fun p row _ => insertRow_edits hP returning p row) rows {} t₁).bind fun p t₂ _ => ?_
  refine (EditsResult.modify (sameDefinition_bump t₂) rfl).bind fun _ t₃ _ => ?_
  exact editsTo_of_same (.refl t₃) rfl le_rfl

/-- The columns that an update gives a value. -/
def Update.columns (u : Update) : Set String := {c | c ∈ u.assignments.map Prod.fst}

theorem newRow_value {u : Update} {idx : ℕ} {row new : RowObject}
    (h : u.newRow idx row = .ok new) (c : String) (v : Lit) (hv : new c = some v) :
    c ∈ u.columns ∨ row c = some v := by
  refine foldlM_keeps (P := fun new : RowObject => ∀ v, new c = some v →
    c ∈ u.columns ∨ row c = some v) u.assignments ?_ (fun v hv => .inr hv) h v hv
  rintro row₁ ⟨column, eval⟩ hassigned row₂ hrow hstep v hv
  obtain ⟨value, -, hstep⟩ := Format.bind_eq_ok hstep
  cases hstep
  rcases insert_eq_some hv with ⟨rfl, -⟩ | hv
  · exact .inl (List.mem_map_of_mem (f := Prod.fst) hassigned)
  · exact hrow v hv

theorem checkUpdate_newRow {ext : Externals} {u : Update} {idx : ℕ} {entry : RowEntry}
    {newRow : RowObject} {oldKey : String}
    (h : checkUpdate ext u t idx entry = .ok (newRow, oldKey)) :
    u.newRow idx entry.row = .ok newRow := by
  unfold checkUpdate at h
  split at h
  · cases h
  · obtain ⟨row, hrow, h⟩ := Format.bind_eq_ok h
    split at h
    · cases h
    · obtain ⟨oldPk, -, h⟩ := Format.bind_eq_ok h
      obtain ⟨newPk, -, h⟩ := Format.bind_eq_ok h
      split at h
      · cases h
      · cases h
        exact hrow

/-- A changed row has the values that it was given and those that it had. -/
theorem updateRow_edits {u : Update}
    (hP : ∀ e : RowEdit, e.kind = .update → e.writes = u.columns → P e) (idx : ℕ) :
    EditsResult st.now P idx (fun _ => idx + 1) t (updateRow st key u idx t) := by
  have hsame : t.EditsTo st.now P idx t (idx + 1) := editsTo_of_same (.refl t) rfl (Nat.le_succ idx)
  unfold updateRow
  rw [bind_of_ok (m := get) rfl]
  rcases hrow : t.data.rows[idx]? with _ | entry
  · exact hsame
  cases hdel : entry.deleted
  on_goal 2 =>
    simp only [hdel]
    exact hsame
  rcases hmatch : u.matches idx entry.row with e | (_ | _)
  · simp only [hdel, hmatch]
    exact ⟨_, hsame⟩
  · simp only [hdel, hmatch]
    exact hsame
  rcases hcheck : checkUpdate st.ext u t idx entry with e | ⟨newRow, oldKey⟩
  · simp only [hdel, hmatch, hcheck]
    exact ⟨_, hsame⟩
  simp only [hdel, hmatch, hcheck]
  change EditsResult _ _ _ _ _ (((modify (Table.rebuildSecondaryIndexesIfStale st.ext.text)
    >>= _) : EStateM _ _ _) t)
  rw [bind_of_ok (m := modify _) rfl, bind_of_ok (m := get) rfl]
  have hrebuilt := @Table.sameRows_rebuild st.ext.text t
  set t₁ := Table.rebuildSecondaryIndexesIfStale st.ext.text t
  rcases Table.mysqlCompatUniqueConflict st.ext.text t₁ newRow (some idx) with _ | index
  on_goal 2 => exact ⟨_, editsTo_of_sameRows hrebuilt (Nat.le_succ idx)⟩
  rcases extractPk t₁.schema newRow with e | newPk
  · exact ⟨_, editsTo_of_sameRows hrebuilt (Nat.le_succ idx)⟩
  have hlt : idx < t₁.data.rows.length := by
    rw [hrebuilt.rows]
    exact (List.getElem?_eq_some_iff.mp hrow).1
  set entry' := st.entry t₁.schema idx newRow false
  refine editsTo_of_edit (e := ⟨.update, st.now idx, idx, entry', u.columns⟩) ?_ (hP _ rfl rfl) rfl
    ⟨entry, hrow, hdel, rfl, rfl, newRow_value (checkUpdate_newRow hcheck)⟩ ?_
  · exact hrebuilt.sameDefinition.trans (sameDefinition_rewriteRow t₁ idx entry.row _ _ _)
  · exact (rows_rewriteRow t₁ entry.row _ _ hlt).trans
      (congrArg (fun rows => List.set rows idx entry') hrebuilt.rows)

theorem deleteRow_edits (hP : ∀ e : RowEdit, e.kind = .delete → P e) (f : Filter) (idx : ℕ) :
    EditsResult st.now P idx (fun _ => idx + 1) t (deleteRow st key f idx t) := by
  have hsame : t.EditsTo st.now P idx t (idx + 1) := editsTo_of_same (.refl t) rfl (Nat.le_succ idx)
  unfold deleteRow
  rw [bind_of_ok (m := get) rfl]
  rcases hrow : t.data.rows[idx]? with _ | entry
  · exact hsame
  cases hdel : entry.deleted
  on_goal 2 =>
    simp only [hdel]
    exact hsame
  rcases hmatch : f.matches idx entry.row with e | (_ | _) <;> simp only [hdel, hmatch]
  · exact ⟨_, hsame⟩
  · exact hsame
  · set entry' := st.entry t.schema idx entry.row true
    refine editsTo_of_edit (e := ⟨.delete, st.now idx, idx, entry', ∅⟩) ?_ (hP _ rfl) rfl
      ⟨entry, hrow, hdel, rfl, rfl, rfl⟩ rfl
    exact ⟨rfl, rfl, rfl, rfl, rfl⟩

theorem sweepRows_edits {visit : ℕ → EStateM String Table (Option (List WalRowRecord))}
    (h : ∀ idx t, EditsResult st.now P idx (fun _ => idx + 1) t (visit idx t)) (limit : Option ℕ) :
    ∃ hi, t.EditsTo st.now P 0 (final (sweepRows st limit visit t)) hi := by
  unfold sweepRows
  rw [bind_of_ok (m := modify _) rfl, bind_of_ok (m := get) rfl]
  have hsame := @Table.sameRows_rebuild st.ext.text t
  set t₁ := Table.rebuildSecondaryIndexesIfStale st.ext.text t
  obtain ⟨hi, hedits⟩ := @scan_edits _ _ 0 _ _ h limit (List.range t₁.data.rows.length)
    List.pairwise_lt_range (fun idx _ => Nat.zero_le idx) [] t₁
  have hedits := (editsTo_of_sameRows hsame le_rfl).trans hedits
  refine ⟨hi, ?_⟩
  rcases hscan : scan visit limit (List.range t₁.data.rows.length) [] t₁ with ⟨done, t₂⟩ | ⟨e, t₂⟩ <;>
    rw [hscan] at hedits
  · rw [bind_of_ok hscan]
    split
    · exact hedits.trans (editsTo_of_same (sameDefinition_bump t₂) rfl le_rfl)
    · exact hedits
  · rw [bind_of_error hscan]
    exact hedits

end Rows

section Vectors
variable {st : Stamp} {P : RowEdit → Prop} {t : Table} {params : VectorInsertParams}

/-- A row of a vector insertion names a key of which the index has only a deleted row. -/
def VectorInsertRow.namesDeleted (text : LitsText) (t : Table) (row : VectorInsertRow) : Prop :=
  ∃ idx entry, t.data.entryAt (text row.pk) = some (idx, entry) ∧ entry.deleted = true

theorem writeVector_edits (hinsert : ∀ e : RowEdit, e.kind = .insert → P e)
    (hembed : ∀ e : RowEdit, e.kind = .embed → e.writes = {params.column} → P e)
    {p p' : VectorProgress} {row : VectorInsertRow} {t' : Table}
    (hdeleted : ∀ e : RowEdit, e.kind = .embedDeleted → e.writes = {params.column} →
      row.namesDeleted st.ext.text t → P e)
    (h : writeVector st params p row t = .ok (p', t')) :
    p'.inserted + p'.updated = p.inserted + p.updated + 1 ∧
      t.EditsTo st.now P (p.inserted + p.updated) t' (p'.inserted + p'.updated) := by
  unfold writeVector at h
  rcases hpk : t.data.pkIndex (st.ext.text row.pk) with _ | idx
  · simp only [hpk, Option.bind_none] at h
    obtain ⟨new, -, h⟩ := Format.bind_eq_ok h
    cases h
    have hcount : p.inserted + 1 + p.updated = p.inserted + p.updated + 1 := by omega
    refine ⟨hcount, ?_⟩
    dsimp only
    rw [hcount]
    exact editsTo_of_edit (e := ⟨.insert, _, t.data.rows.length, _, Set.univ⟩) ⟨rfl, rfl, rfl, rfl, rfl⟩
      (hinsert _ rfl) rfl ⟨rfl, rfl, rfl, fun c _ => Set.mem_univ c⟩ rfl
  · obtain ⟨old, hold⟩ : ∃ old, t.data.rows[idx]? = some old :=
      ⟨_, List.getElem?_eq_getElem (t.data.pk_lt _ _ hpk)⟩
    simp only [hpk, Option.bind_some, hold, Option.map_some] at h
    split at h
    · cases h
    · cases h
      have hkeeps : ∀ c v, (old.row.insert params.column row.embedding) c = some v →
          c ∈ ({params.column} : Set String) ∨ old.row c = some v := fun c v hv =>
        (insert_eq_some hv).imp_left And.left
      refine ⟨by dsimp only; omega, ?_⟩
      set entry := st.entry t.schema (p.inserted + p.updated)
        (old.row.insert params.column row.embedding) false
      cases hdel : old.deleted
      · exact editsTo_of_edit (e := ⟨.embed, _, idx, entry, {params.column}⟩) ⟨rfl, rfl, rfl, rfl, rfl⟩
          (hembed _ rfl rfl) rfl ⟨old, hold, hdel, rfl, rfl, hkeeps⟩ rfl
      · refine editsTo_of_edit (e := ⟨.embedDeleted, _, idx, entry, {params.column}⟩)
          ⟨rfl, rfl, rfl, rfl, rfl⟩ (hdeleted _ rfl rfl ⟨idx, old, ?_, hdel⟩) rfl
          ⟨old, hold, hdel, rfl, rfl, hkeeps⟩ rfl
        simp [TableData.entryAt, hpk, hold]

theorem vectorRow_edits (hinsert : ∀ e : RowEdit, e.kind = .insert → P e)
    (hembed : ∀ e : RowEdit, e.kind = .embed → e.writes = {params.column} → P e)
    (p : VectorProgress) (row : VectorInsertRow)
    (hdeleted : ∀ e : RowEdit, e.kind = .embedDeleted → e.writes = {params.column} →
      row.namesDeleted st.ext.text t → P e) :
    EditsResult st.now P (p.inserted + p.updated) (fun p => p.inserted + p.updated) t
      (vectorRow st params p row t) := by
  have hsame : t.EditsTo st.now P (p.inserted + p.updated) t (p.inserted + p.updated) :=
    editsTo_of_same (.refl t) rfl le_rfl
  unfold vectorRow
  rw [bind_of_ok (m := get) rfl]
  split
  · exact ⟨_, hsame⟩
  rcases embeddingRef row.embedding with e | ref
  · exact ⟨_, hsame⟩
  rcases hwrite : writeVector st params p row t with e | ⟨p', t'⟩
  · exact ⟨_, hsame⟩
  obtain ⟨-, hedits⟩ := writeVector_edits hinsert hembed hdeleted hwrite
  dsimp only
  rw [bind_of_ok (m := set _) rfl]
  rcases embeddingIdForLit st.ext row.embedding with e | id
  · exact ⟨_, hedits⟩
  · exact hedits

theorem entryAt_eq_some {d : TableData} {key : String} {idx : ℕ} {entry : RowEntry}
    (h : d.entryAt key = some (idx, entry)) :
    d.pkIndex key = some idx ∧ d.rows[idx]? = some entry := by
  obtain ⟨i, hpk, hrow⟩ := Option.bind_eq_some_iff.mp h
  obtain ⟨found, hfound, hpair⟩ := Option.map_eq_some_iff.mp hrow
  cases hpair
  exact ⟨hpk, hfound⟩

/-- Storing a row that is live leaves no key with a deleted row that had none. -/
theorem entryAt_setRow {d : TableData} {idx idx' : ℕ} {entry entry' : RowEntry} {key : String}
    (hlive : entry.deleted = false) (h : (d.setRow idx entry).entryAt key = some (idx', entry'))
    (hdel : entry'.deleted = true) : d.entryAt key = some (idx', entry') := by
  obtain ⟨hpk, hfound⟩ := entryAt_eq_some h
  have hpk : d.pkIndex key = some idx' := hpk
  have hfound : (d.rows.set idx entry)[idx']? = some entry' := hfound
  by_cases hidx : idx = idx'
  · rw [hidx, List.getElem?_set_self (d.pk_lt key idx' hpk)] at hfound
    cases hfound
    rw [hlive] at hdel
    cases hdel
  · rw [List.getElem?_set_ne hidx] at hfound
    simp [TableData.entryAt, hpk, hfound]

theorem entryAt_pushRow {d : TableData} {idx' : ℕ} {entry entry' : RowEntry} {key key' : String}
    (hlive : entry.deleted = false) (h : (d.pushRow key entry).entryAt key' = some (idx', entry'))
    (hdel : entry'.deleted = true) : d.entryAt key' = some (idx', entry') := by
  obtain ⟨hpk, hfound⟩ := entryAt_eq_some h
  have hpk : Function.update d.pkIndex key (some d.rows.length) key' = some idx' := hpk
  have hfound : (d.rows ++ [entry])[idx']? = some entry' := hfound
  by_cases hkey : key' = key
  · rw [hkey, Function.update_self] at hpk
    cases hpk
    rw [List.getElem?_concat_length] at hfound
    cases hfound
    rw [hlive] at hdel
    cases hdel
  · rw [Function.update_of_ne hkey] at hpk
    rw [List.getElem?_append_left (d.pk_lt key' idx' hpk)] at hfound
    simp [TableData.entryAt, hpk, hfound]

theorem vectorRow_namesDeleted {p p' : VectorProgress} {row row' : VectorInsertRow} {t' : Table}
    (h : vectorRow st params p row t = .ok p' t') (hdeleted : row'.namesDeleted st.ext.text t') :
    row'.namesDeleted st.ext.text t := by
  obtain ⟨idx', entry', hentry, hdel⟩ := hdeleted
  refine ⟨idx', entry', ?_, hdel⟩
  unfold vectorRow at h
  rw [bind_of_ok (m := get) rfl] at h
  split at h
  · cases h
  rcases href : embeddingRef row.embedding with e | ref <;> simp only [href] at h
  · cases h
  rcases hwrite : writeVector st params p row t with e | ⟨p₁, t₁⟩ <;> simp only [hwrite] at h
  · cases h
  rw [bind_of_ok (m := set _) rfl] at h
  have ht' : t' = t₁ := by
    rcases hid : embeddingIdForLit st.ext row.embedding with e | id <;> simp only [hid] at h
    · cases h
    · cases h
      rfl
  subst ht'
  unfold writeVector at hwrite
  split at hwrite
  · split at hwrite
    · cases hwrite
    · cases hwrite
      exact entryAt_setRow rfl hentry hdel
  · obtain ⟨new, -, hwrite⟩ := Format.bind_eq_ok hwrite
    cases hwrite
    exact entryAt_pushRow rfl hentry hdel

theorem vectorRows_edits (hinsert : ∀ e : RowEdit, e.kind = .insert → P e)
    (hembed : ∀ e : RowEdit, e.kind = .embed → e.writes = {params.column} → P e)
    (hdeleted : ∀ e : RowEdit, e.kind = .embedDeleted → e.writes = {params.column} →
      (∃ row ∈ params.rows, row.namesDeleted st.ext.text t) → P e) :
    ∃ hi, t.EditsTo st.now P 0 (final (vectorRows st params t)) hi := by
  unfold vectorRows
  rw [bind_of_ok (m := get) rfl]
  rcases checkVectorTable t.schema params.column with e | ⟨⟩
  · exact ⟨0, editsTo_of_same (.refl t) rfl le_rfl⟩
  have hfold : ∀ (rows : List VectorInsertRow) (p : VectorProgress) (t₁ : Table),
      rows ⊆ params.rows →
      (∀ row : VectorInsertRow, row.namesDeleted st.ext.text t₁ → row.namesDeleted st.ext.text t) →
      EditsResult st.now P (p.inserted + p.updated) (fun p => p.inserted + p.updated) t₁
        (rows.foldlM (vectorRow st params) p t₁) := by
    intro rows
    induction rows with
    | nil => exact fun p t₁ _ _ => editsTo_of_same (.refl t₁) rfl le_rfl
    | cons row rows ih =>
      intro p t₁ hsub hnames
      rw [List.foldlM_cons]
      refine (vectorRow_edits hinsert hembed p row fun e hkind hwrites hnamed => ?_).bind
        fun p' t₂ hrun => ?_
      · exact hdeleted e hkind hwrites ⟨row, hsub List.mem_cons_self, hnames row hnamed⟩
      · exact ih p' t₂ (fun row' hrow' => hsub (List.mem_cons_of_mem _ hrow')) fun row' hrow' =>
          hnames row' (vectorRow_namesDeleted hrun hrow')
  refine @EditsResult.final _ _ _ _ _ (fun p => p.inserted + p.updated) _ ?_
  refine (hfold params.rows {} t (List.Subset.refl _) fun _ h => h).bind fun p t₁ _ => ?_
  split
  · exact editsTo_of_same ⟨rfl, rfl, rfl, rfl, rfl⟩ rfl le_rfl
  · exact editsTo_of_same (.refl t₁) rfl le_rfl

end Vectors

section Merges
variable {st : Stamp} {key : TableKey} {P : RowEdit → Prop} {t t' : Table} {m : MergeApplyParams}
  {policy : MergePolicy} {result : MergeApplyResult}

/-- The columns that a merge gives a value. -/
def MergeApplyParams.columns (m : MergeApplyParams) (schema : TableSchema) : Set String :=
  {c | (m.incoming c).isSome ∨ c ∈ schema.primaryKey}

/-- The index has only a deleted row for the key of the merge. -/
def MergeApplyParams.namesDeleted (text : LitsText) (t : Table) (m : MergeApplyParams) : Prop :=
  ∃ idx entry, t.data.entryAt (text m.pk) = some (idx, entry) ∧ entry.deleted = true

theorem checkMerged_ok {schema : TableSchema} {pk : List Lit} {merged row : RowObject}
    {etag : Option String} {conflicts : List String} {violation : Option MergeApplyResult}
    (h : checkMerged schema pk merged etag conflicts = .ok (row, violation)) :
    ensurePkValues schema pk merged = .ok row := by
  obtain ⟨row', hrow, h⟩ := Format.bind_eq_ok h
  cases h
  exact hrow

theorem mergeInto_edits (kind : EditKind) {idx : ℕ} {entry : RowEntry} {merged : RowObject}
    {writes : Set String} (hP : ∀ e : RowEdit, e.kind = kind → e.writes = writes → P e)
    (hkind : kind ≠ .insert) (hrow : t.data.rows[idx]? = some entry)
    (hchanges : RowEdit.Changes ⟨kind, st.now 0, idx,
      { st.entry t.schema 0 merged false with commitTsMs := entry.commitTsMs }, writes⟩ entry) :
    ∃ hi, t.EditsTo st.now P 0 (t.mergeInto st idx entry merged) hi := by
  refine ⟨1, editsTo_of_edit (e := ⟨kind, st.now 0, idx,
    { st.entry t.schema 0 merged false with commitTsMs := entry.commitTsMs }, writes⟩)
    ⟨rfl, rfl, rfl, rfl, rfl⟩ (hP _ rfl rfl) rfl ?_ ?_⟩
  · rw [RowEdit.Valid, if_neg hkind]
    exact ⟨entry, hrow, hchanges⟩
  · cases kind
    · exact absurd rfl hkind
    all_goals rfl

/-- The row that a merge puts in the place of another, and the one from which it starts. -/
structure MergedInto (m : MergeApplyParams) (policy : MergePolicy) (schema : TableSchema)
    (entry : RowEntry) (merged row : RowObject) : Prop where
  merge : policy.merge (if entry.deleted then fun _ => none else entry.row) m.incoming = .ok merged
  keyed : ensurePkValues schema m.pk merged = .ok row

/-- A merge leaves the table alone, puts a row in the place of the one that the index has for its
key, or adds one. -/
theorem mergeTable_cases (h : mergeTable st key m policy t = .ok (result, t')) :
    t' = t ∨ t.schema.primaryKey ≠ [] ∧
      ((∃ idx entry merged row, t.data.entryAt (st.ext.text m.pk) = some (idx, entry) ∧
          MergedInto m policy t.schema entry merged row ∧ t' = t.mergeInto st idx entry row) ∨
        t.data.entryAt (st.ext.text m.pk) = none ∧ ∃ row,
          ensurePkValues t.schema m.pk m.incoming = .ok row ∧
          t' = { schema := bumpTableVersion t.schema
                 data := t.data.pushRow (st.ext.text m.pk) (st.entry t.schema 0 row false) }) := by
  unfold mergeTable at h
  split at h
  · cases h
  rename_i hne
  split at h
  · cases h
  dsimp only at h
  split at h
  · split at h
    · cases h
    · split at h
      · cases h
        exact .inl rfl
      · obtain ⟨row, -, h⟩ := Format.bind_eq_ok h
        cases h
        exact .inl rfl
  split at h
  · cases h
    exact .inl rfl
  split at h
  · rename_i idx entry hentry
    unfold mergeExisting at h
    dsimp only at h
    split at h
    · rename_i hdel
      split at h
      · obtain ⟨⟨row, violation⟩, -, h⟩ := Format.bind_eq_ok h
        cases h
        exact .inl rfl
      · obtain ⟨merged, hmerged, h⟩ := Format.bind_eq_ok h
        obtain ⟨⟨row, violation⟩, hcheck, h⟩ := Format.bind_eq_ok h
        rcases violation with _ | violation <;> cases h
        · refine .inr ⟨hne, .inl ⟨idx, entry, merged, row, hentry, ⟨?_, checkMerged_ok hcheck⟩, rfl⟩⟩
          rw [if_pos hdel]
          exact hmerged
        · exact .inl rfl
    · rename_i hlive
      generalize (if m.expectedEtag.any (some · ≠ some (st.ext.rowEtag entry.row entry.version)) = true
        then ["write_write"] else []) = conflicts at h
      obtain ⟨merged, hmerged, h⟩ := Format.bind_eq_ok h
      obtain ⟨⟨row, violation⟩, hcheck, h⟩ := Format.bind_eq_ok h
      rcases violation with _ | violation
      · dsimp only at h
        split at h
        · cases h
          exact .inl rfl
        · cases h
          refine .inr ⟨hne, .inl ⟨idx, entry, merged, row, hentry, ⟨?_, checkMerged_ok hcheck⟩, rfl⟩⟩
          rw [if_neg hlive]
          exact hmerged
      · cases h
        exact .inl rfl
  · rename_i hnone
    unfold mergeNew at h
    split at h
    · obtain ⟨⟨row, violation⟩, -, h⟩ := Format.bind_eq_ok h
      cases h
      exact .inl rfl
    · obtain ⟨⟨row, violation⟩, hcheck, h⟩ := Format.bind_eq_ok h
      rcases violation with _ | violation <;> cases h
      · exact .inr ⟨hne, .inr ⟨hnone, row, checkMerged_ok hcheck, rfl⟩⟩
      · exact .inl rfl

theorem mergeTable_edits (hinsert : ∀ e : RowEdit, e.kind = .insert → P e)
    (hmerge : ∀ e : RowEdit, e.kind = .merge → e.writes = m.columns t.schema → P e)
    (hrevive : ∀ e : RowEdit, e.kind = .revive → e.writes = m.columns t.schema →
      m.namesDeleted st.ext.text t → P e)
    {value : String → Lit → Lit → Except String Lit} {columns : List String}
    (hpolicy : policy.merge = mergeRows value columns)
    (h : mergeTable st key m policy t = .ok (result, t')) : ∃ hi, t.EditsTo st.now P 0 t' hi := by
  rcases mergeTable_cases h with rfl | ⟨-, ⟨idx, entry, merged, row, hentry, hinto, rfl⟩ |
    ⟨-, row, -, rfl⟩⟩
  · exact ⟨0, editsTo_of_same (.refl t') rfl le_rfl⟩
  · obtain ⟨-, hrow⟩ := entryAt_eq_some hentry
    have hmerged := hinto.merge
    rw [hpolicy] at hmerged
    cases hdel : entry.deleted
    · refine mergeInto_edits .merge hmerge (by decide) hrow ⟨hdel, rfl, rfl, fun c v hv => ?_⟩
      rw [hdel] at hmerged
      rcases ensurePkValues_value hinto.keyed c v hv with hc | hv
      · exact .inl (.inr hc)
      · exact (mergeRows_value hmerged c v hv).imp_left .inl
    · refine mergeInto_edits .revive (fun e hkind hwrites => hrevive e hkind hwrites
        ⟨idx, entry, hentry, hdel⟩) (by decide) hrow ⟨hdel, rfl, rfl, fun c hc => ?_⟩
      rw [hdel] at hmerged
      obtain ⟨v, hv⟩ := Option.isSome_iff_exists.mp hc
      rcases ensurePkValues_value hinto.keyed c v hv with hc | hv
      · exact .inr hc
      · rcases mergeRows_value hmerged c v hv with hc | hnone
        · exact .inl hc
        · cases hnone
  · exact ⟨1, editsTo_of_edit (e := ⟨.insert, _, t.data.rows.length, _, Set.univ⟩)
      ⟨rfl, rfl, rfl, rfl, rfl⟩ (hinsert _ rfl) rfl ⟨rfl, rfl, rfl, fun c _ => Set.mem_univ c⟩ rfl⟩

end Merges

end SkeinDB.Tables
