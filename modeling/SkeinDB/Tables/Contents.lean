import SkeinDB.Tables.Calls

/-!
# What the rows of a table show

Two states of a table have the same contents if their definitions and the values of their live
rows, in order, are the same, whatever the versions and times of these and whatever deleted rows
there are between them. Updates that give no row other values and deletions that match no row
leave the contents, as does an insertion that is refused at its first row.
-/
namespace SkeinDB.Tables
open SkeinDB.Transition

def visibleRows (rows : List RowEntry) : List RowObject :=
  (rows.filter fun entry => !entry.deleted).map RowEntry.row

def Table.visible (t : Table) : List RowObject := visibleRows t.data.rows

structure Table.SameContents (t u : Table) : Prop where
  definition : SameDefinition t u
  visible : u.visible = t.visible

def RowEntry.shown (entry : RowEntry) : Bool × RowObject := (entry.deleted, entry.row)

/-- The rows in the same positions show the same. -/
structure Table.SameShown (t u : Table) : Prop where
  definition : SameDefinition t u
  shown : u.data.rows.map RowEntry.shown = t.data.rows.map RowEntry.shown

/-- The row in a position is live and the filter takes it. -/
def Filter.Picks (f : Filter) (t : Table) (idx : ℕ) (row : RowObject) : Prop :=
  (∃ entry, t.data.rows[idx]? = some entry ∧ entry.deleted = false ∧ entry.row = row) ∧
    f.matches idx row = .ok true

/-- No row that the update is about gets other values. -/
def Update.ChangesNothing (u : Update) (t : Table) : Prop :=
  ∀ idx row, u.Picks t idx row → ∀ new, u.newRow idx row = .ok new → new = row

section Rows
variable {t u v : Table} {text : LitsText}

theorem visibleRows_append (rows rows' : List RowEntry) :
    visibleRows (rows ++ rows') = visibleRows rows ++ visibleRows rows' := by
  rw [visibleRows, List.filter_append, List.map_append]
  rfl

theorem visibleRows_congr {rows rows' : List RowEntry}
    (h : rows'.map RowEntry.shown = rows.map RowEntry.shown) :
    visibleRows rows' = visibleRows rows := by
  have hvisible : ∀ rows : List RowEntry, visibleRows rows =
      ((rows.map RowEntry.shown).filter fun shown => !shown.1).map Prod.snd := by
    intro rows
    rw [visibleRows, List.filter_map, List.map_map]
    rfl
  rw [hvisible, hvisible, h]

theorem Table.SameContents.refl (t : Table) : t.SameContents t := ⟨.refl t, rfl⟩

theorem Table.SameContents.trans (h : t.SameContents u) (h' : u.SameContents v) :
    t.SameContents v :=
  ⟨h.definition.trans h'.definition, h'.visible.trans h.visible⟩

theorem Table.SameShown.refl (t : Table) : t.SameShown t := ⟨.refl t, rfl⟩

theorem Table.SameShown.trans (h : t.SameShown u) (h' : u.SameShown v) : t.SameShown v :=
  ⟨h.definition.trans h'.definition, h'.shown.trans h.shown⟩

theorem Table.SameShown.sameContents (h : t.SameShown u) : t.SameContents u :=
  ⟨h.definition, visibleRows_congr h.shown⟩

theorem sameShown_of_rows (h : SameDefinition t u) (hrows : u.data.rows = t.data.rows) :
    t.SameShown u :=
  ⟨h, by rw [hrows]⟩

theorem Table.SameRows.sameShown (h : t.SameRows u) : t.SameShown u :=
  sameShown_of_rows h.sameDefinition h.rows

theorem Table.SameShown.entry (h : t.SameShown u) {idx : ℕ} {entry : RowEntry}
    (hentry : u.data.rows[idx]? = some entry) : ∃ entry', t.data.rows[idx]? = some entry' ∧
      entry'.deleted = entry.deleted ∧ entry'.row = entry.row := by
  have hget := congrArg (fun rows => rows[idx]?) h.shown
  simp only [List.getElem?_map, hentry, Option.map_some] at hget
  obtain ⟨entry', hentry', hshown⟩ := Option.map_eq_some_iff.mp hget.symm
  exact ⟨entry', hentry', congrArg Prod.fst hshown, congrArg Prod.snd hshown⟩

theorem Table.SameShown.picks (h : t.SameShown u) {f : Filter} {idx : ℕ} {entry : RowEntry}
    (hentry : u.data.rows[idx]? = some entry) (hlive : entry.deleted = false)
    (hmatch : f.matches idx entry.row = .ok true) : f.Picks t idx entry.row := by
  obtain ⟨entry', hentry', hdel, hrow⟩ := h.entry hentry
  exact ⟨⟨entry', hentry', hdel.trans hlive, hrow⟩, hmatch⟩

theorem stable_sameContents : Stable text t.SameContents where
  rebuild _ h := h.trans Table.sameRows_rebuild.sameShown.sameContents

end Rows

section Sweeps
variable {st : Stamp} {key : TableKey} {t u : Table}

theorem preserves_rebuild {text : LitsText} :
    Preserves t.SameShown
      (modify (Table.rebuildSecondaryIndexesIfStale text) : EStateM String Table Unit) :=
  preserves_modify fun _ h => h.trans Table.sameRows_rebuild.sameShown

theorem preserves_sweepRows {limit : Option ℕ}
    {visit : ℕ → EStateM String Table (Option (List WalRowRecord))}
    (h : ∀ idx, Preserves t.SameShown (visit idx)) :
    Preserves t.SameShown (sweepRows st limit visit) := by
  unfold sweepRows
  refine preserves_rebuild.bind fun _ => Preserves.bind (fun u hu => hu) fun u => ?_
  refine (Preserves.scan fun idx _ => h idx).bind fun affected => ?_
  split
  · refine Preserves.bind (preserves_modify fun u hu => hu.trans ?_) fun _ => preserves_pure _
    exact sameShown_of_rows (sameDefinition_bump u) rfl
  · exact preserves_pure _

/-- A deletion passes over the rows that its filter does not take. -/
theorem preserves_deleteRow {f : Filter} (hf : ∀ idx row, ¬f.Picks t idx row) (idx : ℕ) :
    Preserves t.SameShown (deleteRow st key f idx) := by
  intro u hu
  unfold deleteRow
  rw [bind_of_ok (m := get) rfl]
  rcases hentry : u.data.rows[idx]? with _ | entry
  · exact hu
  cases hdel : entry.deleted
  on_goal 2 =>
    simp only [hdel]
    exact hu
  rcases hmatch : f.matches idx entry.row with e | (_ | _) <;> simp only [hdel, hmatch]
  · exact hu
  · exact hu
  · exact absurd (hu.picks hentry hdel hmatch) (hf idx entry.row)

/-- An update stores a row with the values that it had. -/
theorem preserves_updateRow {w : Update} (hw : w.ChangesNothing t) (idx : ℕ) :
    Preserves t.SameShown (updateRow st key w idx) := by
  intro u hu
  unfold updateRow
  rw [bind_of_ok (m := get) rfl]
  rcases hentry : u.data.rows[idx]? with _ | entry
  · exact hu
  cases hdel : entry.deleted
  on_goal 2 =>
    simp only [hdel]
    exact hu
  rcases hmatch : w.matches idx entry.row with e | (_ | _)
  · simp only [hdel, hmatch]
    exact hu
  · simp only [hdel, hmatch]
    exact hu
  rcases hcheck : checkUpdate st.ext w u idx entry with e | ⟨newRow, oldKey⟩
  · simp only [hdel, hmatch, hcheck]
    exact hu
  have hnew : newRow = entry.row :=
    hw idx entry.row (hu.picks hentry hdel hmatch) newRow (checkUpdate_newRow hcheck)
  simp only [hdel, hmatch, hcheck]
  change t.SameShown (final (((modify (Table.rebuildSecondaryIndexesIfStale st.ext.text)
    >>= _) : EStateM _ _ _) u))
  rw [bind_of_ok (m := modify _) rfl, bind_of_ok (m := get) rfl]
  have hrebuilt := @Table.sameRows_rebuild st.ext.text u
  set u₁ := Table.rebuildSecondaryIndexesIfStale st.ext.text u
  have hu₁ : t.SameShown u₁ := hu.trans hrebuilt.sameShown
  rcases Table.mysqlCompatUniqueConflict st.ext.text u₁ newRow (some idx) with _ | index
  on_goal 2 => exact hu₁
  rcases extractPk u₁.schema newRow with e | newPk
  · exact hu₁
  have hlt : idx < u₁.data.rows.length := by
    rw [hrebuilt.rows]
    exact (List.getElem?_eq_some_iff.mp hentry).1
  refine ⟨hu₁.definition.trans (sameDefinition_rewriteRow u₁ idx entry.row _ _ _), ?_⟩
  have hrows := @rows_rewriteRow st.ext.text _
    (st.entry u₁.schema idx newRow false) u₁ entry.row oldKey (st.ext.text newPk) hlt
  refine (congrArg (List.map RowEntry.shown) hrows).trans ?_
  have hshown : (u₁.data.rows.map RowEntry.shown)[idx]? =
      some (st.entry u₁.schema idx newRow false).shown := by
    rw [List.getElem?_map, hrebuilt.rows, hentry, hnew, Option.map_some, RowEntry.shown, hdel]
    rfl
  obtain ⟨hlt, hsame⟩ := List.getElem?_eq_some_iff.mp hshown
  rw [List.map_set, ← hu₁.shown, ← hsame, List.set_getElem_self]

end Sweeps

section One
variable {st : Stamp} {key : TableKey} {t u : Table}

/-- An insertion of one row that is not refused shows the row after the others. -/
theorem insertRows_one {row : RowObject}
    (h : ¬RefusesInsert st.ext.text (t.rebuildSecondaryIndexesIfStale st.ext.text) row) :
    ∃ progress flag u, insertRows st key [row] none t = .ok (progress, flag) u ∧
      progress.walRecords.length = 1 ∧
      progress.lastInsertId = (applyDefaultsAndAutoinc t.schema row 0).lastInsertId ∧
      SameDefinition t u ∧
      u.visible = t.visible ++ [(applyDefaultsAndAutoinc t.schema row 0).row] := by
  have hsame := @Table.sameRows_rebuild st.ext.text t
  have hcurrent := (@Table.rebuild_current st.ext.text t).withCounters
    (applyDefaultsAndAutoinc t.schema row 0).autoIncNext
  unfold insertRows
  rw [bind_of_ok (m := modify _) rfl, List.foldlM_cons, bind_assoc]
  rw [RefusesInsert, hsame.schema, not_or] at h
  set t₁ := t.rebuildSecondaryIndexesIfStale st.ext.text
  set fill := applyDefaultsAndAutoinc t.schema row 0 with hfill
  have hnull : notNullViolation t.schema fill.row = none := not_not.mp h.1
  rcases hcheck : checkInsert st.ext.text t₁ fill.row with e | pk
  · exact absurd ⟨e, hcheck⟩ h.2
  have hcheck' : checkInsert st.ext.text (t₁.withCounters fill.autoIncNext) fill.row = .ok pk := hcheck
  set entry := st.entry (t₁.withCounters fill.autoIncNext).schema 0 fill.row false
  have hrun : insertRow st key none {} row t₁ = .ok ⟨fill.lastInsertId, [], [.fromEntry key pk entry]⟩
      ((t₁.withCounters fill.autoIncNext).storeRow st.ext.text (st.ext.text pk) entry) := by
    unfold insertRow
    rw [bind_of_ok (m := get) rfl]
    dsimp only
    rw [hsame.schema, ← hfill, bind_of_ok (m := set _) rfl, hnull]
    dsimp only
    rw [bind_of_ok (m := modify _) rfl, bind_of_ok (m := get) rfl, Table.rebuild_of_current hcurrent,
      hcheck']
    rfl
  rw [bind_of_ok hrun]
  refine ⟨_, _, _, rfl, rfl, rfl, ?_, ?_⟩
  · exact hsame.sameDefinition.trans ⟨rfl, rfl, rfl, rfl, rfl⟩
  · change visibleRows (t₁.data.rows ++ [entry]) = _
    rw [visibleRows_append, hsame.rows]
    rfl

/-- The last of the rows that are visible. -/
theorem exists_last {rows : List RowEntry} {vs : List RowObject} {row : RowObject}
    (h : visibleRows rows = vs ++ [row]) : ∃ before entry after, rows = before ++ entry :: after ∧
      entry.deleted = false ∧ entry.row = row ∧ visibleRows before = vs ∧ visibleRows after = [] := by
  induction rows using List.reverseRecOn with
  | nil => exact absurd h (by simp [visibleRows])
  | append_singleton rows last ih =>
    rw [visibleRows_append] at h
    cases hdel : last.deleted
    · have hlast : visibleRows [last] = [last.row] := by simp [visibleRows, hdel]
      rw [hlast] at h
      obtain ⟨hvs, hrow⟩ := List.append_inj' h rfl
      exact ⟨rows, last, [], rfl, hdel, List.head_eq_of_cons_eq hrow, hvs, rfl⟩
    · have hlast : visibleRows [last] = [] := by simp [visibleRows, hdel]
      rw [hlast, List.append_nil] at h
      obtain ⟨before, entry, after, rfl, hlive, hrow, hbefore, hafter⟩ := ih h
      refine ⟨before, entry, after ++ [last], by simp, hlive, hrow, hbefore, ?_⟩
      rw [visibleRows_append, hafter, hlast, List.append_nil]

/-- A deletion of one row whose filter takes only the last of the visible rows. -/
theorem deleteRows_one {f : Filter} {vs : List RowObject} {row : RowObject}
    (hvisible : t.visible = vs ++ [row]) (hpass : ∀ idx, ∀ v ∈ vs, f.matches idx v = .ok false)
    (htake : ∀ idx, f.matches idx row = .ok true) : ∃ records u,
      sweepRows st (some 1) (deleteRow st key f) t = .ok [records] u ∧ SameDefinition t u ∧
        u.visible = vs := by
  have hsame := @Table.sameRows_rebuild st.ext.text t
  unfold sweepRows
  rw [bind_of_ok (m := modify _) rfl, bind_of_ok (m := get) rfl]
  set t₁ := t.rebuildSecondaryIndexesIfStale st.ext.text
  obtain ⟨before, entry, after, hrows, hlive, rfl, hbefore, hafter⟩ := exists_last hvisible
  rw [← hsame.rows] at hrows
  have hentry : t₁.data.rows[before.length]? = some entry := by
    rw [hrows, List.getElem?_append_right le_rfl, Nat.sub_self]
    rfl
  have hrange : List.range t₁.data.rows.length = List.range before.length ++
      before.length :: (List.range after.length).map (before.length + 1 + ·) := by
    rw [hrows, List.length_append, List.length_cons, Nat.add_comm after.length, ← Nat.add_assoc,
      List.range_add, List.range_succ, List.append_assoc]
    rfl
  have hpassed : ∀ idx ∈ List.range before.length, deleteRow st key f idx t₁ = .ok none t₁ := by
    intro idx hidx
    have hlt : idx < before.length := List.mem_range.mp hidx
    have hget : t₁.data.rows[idx]? = some before[idx] := by
      rw [hrows, List.getElem?_append_left hlt, List.getElem?_eq_getElem hlt]
    unfold deleteRow
    rw [bind_of_ok (m := get) rfl, hget]
    cases hdel : before[idx].deleted <;> simp only [hdel]
    · have hshown : before[idx].row ∈ vs := by
        rw [← hbefore]
        exact List.mem_map_of_mem (List.mem_filter.mpr ⟨List.getElem_mem hlt, by simp [hdel]⟩)
      rw [hpass idx _ hshown]
      rfl
    · rfl
  set entry' := st.entry t₁.schema before.length entry.row true
  set records := ((extractPk t₁.schema entry.row).toOption.map (WalRowRecord.fromEntry key · entry')).toList
  set u := t₁.removeRow st.ext.text before.length entry.row entry'
  have hdeleted : deleteRow st key f before.length t₁ = .ok (some records) u := by
    unfold deleteRow
    rw [bind_of_ok (m := get) rfl, hentry]
    dsimp only
    rw [hlive, htake]
    rfl
  have hscan : scan (deleteRow st key f) (some 1) (List.range t₁.data.rows.length) [] t₁ =
      .ok [records] u := by
    rw [hrange, scan_append hpassed, scan, bind_of_ok hdeleted]
    rfl
  rw [bind_of_ok hscan]
  refine ⟨records, bump u, rfl, ?_, ?_⟩
  · exact hsame.sameDefinition.trans ⟨rfl, rfl, rfl, rfl, rfl⟩
  · change visibleRows (t₁.data.rows.set before.length entry') = vs
    have hset : t₁.data.rows.set before.length entry' = before ++ ([entry'] ++ after) := by
      rw [hrows, List.set_append_right _ _ le_rfl, Nat.sub_self]
      rfl
    have hgone : visibleRows [entry'] = [] := rfl
    rw [hset, visibleRows_append, visibleRows_append, hgone, hafter, hbefore, List.nil_append,
      List.append_nil]

end One

end SkeinDB.Tables
