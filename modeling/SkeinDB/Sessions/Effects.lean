import SkeinDB.Queries.TimeTravel
import SkeinDB.Sessions.MySql
import SkeinDB.Tables.Writable

/-!
# What statements leave as it was

A statement that is refused before its first row, that matches no row or that gives each row the
values which it has leaves what the tables show. An insertion of one row that the table takes adds
that row, and the deletion of a row that is shown last takes it away.
-/
namespace SkeinDB.Sessions
open SkeinDB.Queries SkeinDB.Tables SkeinDB.Transition

section Conditions
variable {X ι : Type} [DecidableEq ι] (sql : Sql X ι) (at_ : Surroundings)

/-- The table takes none of the rows: it refuses the first, or there is none. -/
def RefusesRows (table : TableKey) (rows : List RowObject) (s : Engine) : Prop :=
  ∀ row rest, rows = row :: rest → ∀ t, s.tableOf sql.ext.text table = some t →
    RefusesInsert sql.ext.text (t.rebuildSecondaryIndexesIfStale sql.ext.text) row

/-- Each of the rows is there already or refused. -/
def IgnoresRows (table : TableKey) (columns : List String) : List RowObject → Engine → Prop
  | [], _ => True
  | row :: rest, s =>
    match probeRow sql s table columns row with
    | some (.error _) => True
    | some (.ok true) => IgnoresRows table columns rest s
    | _ => RefusesRows sql table [row] s ∧
      IgnoresRows table columns rest (final (sqlInsert sql at_ table [row] s))

/-- The insertion adds no row and changes none. -/
def CalmInsert (mode : InsertMode) (table : TableKey) (columns : List String)
    (rows : List RowObject) (s : Engine) : Option (List InsertDupAssign) → Prop
  | some assigns =>
    rows = [] ∨ columns = [] ∨ assigns = [] ∨ ∃ e, s.getSchema table = .error e
  | none =>
    match mode with
    | .insert => RefusesRows sql table rows s
    | .ignore => IgnoresRows sql at_ table columns rows s
    | .replace => rows = [] ∨ ∃ e, s.getSchema table = .error e

/-- The statement changes nothing that the tables show. -/
def Calm (s : Engine) : SqlPlan X → Prop
  | .insert mode table columns rows onDuplicate =>
    CalmInsert sql at_ mode table columns rows s onDuplicate
  | .update table set whereExpr limit => ∀ t, s.tableOf sql.ext.text table = some t →
    (whereUpdate sql table t.schema set whereExpr limit).ChangesNothing t
  | .delete table whereExpr limit => ∀ t, s.tableOf sql.ext.text table = some t →
    ∀ idx row, ¬(whereFilter sql table t.schema whereExpr limit).Picks t idx row

end Conditions

section Effects
variable {X ι : Type} [DecidableEq ι] {sql : Sql X ι} {at_ : Surroundings} {s s' : Engine}
  {table : TableKey} {t : Table}

theorem schema_getTable {text : LitsText} {t' : Table} (ht : s.tableOf text table = some t)
    (ht' : s.getTable table = .ok t') : t'.schema = t.schema := by
  obtain ⟨schema, hschema, h⟩ := Option.bind_eq_some_iff.mp ht
  obtain ⟨d, hd, h⟩ := Option.bind_eq_some_iff.mp h
  obtain ⟨d', -, rfl⟩ := Option.map_eq_some_iff.mp h
  rcases hs : s.getSchema table with e | schema'
  · rw [hs] at hschema
    cases hschema
  · rw [hs] at hschema
    cases hschema
    rw [Engine.getTable, hs, hd] at ht'
    cases ht'
    rfl

theorem final_onTable_run {w : Write} {ext : Externals} {io : Io} {now : ℕ → ℕ} {α : Type}
    {m : EStateM String Engine α} {g : α → Unit} (h : w.run ext io now table = g <$> m) :
    final (m s) = final (w.run ext io now table s) := by
  rw [h, final_map]

omit [DecidableEq ι] in
theorem shows_sqlInsert {rows : List RowObject} (h : RefusesRows sql table rows s) :
    s.Shows sql.ext.text (final (sqlInsert sql at_ table rows s)) ∧
      ((∃ e s', sqlInsert sql at_ table rows s = .error e s') ∨
        rows = [] ∧ ∀ w s', sqlInsert sql at_ table rows s = .ok w s' → w.affected = 0) := by
  constructor
  · unfold sqlInsert
    rw [final_onTable_run (w := .data (.insert rows none)) rfl]
    refine shows_write _ fun t ht => ?_
    rw [Write.part, final_map]
    have hsame := (@Table.sameRows_rebuild sql.ext.text t).sameShown
    rcases @insertRows_cases ⟨sql.ext, at_.now, s.schemaVersionFor table⟩
      table none _ (resident_tableOf ht) rows with
      ⟨rfl, hrun⟩ | ⟨row, rest, rfl, ⟨-, e, hrun⟩ | ⟨htakes, -⟩⟩
    · rw [hrun]
      exact (hsame.trans (sameShown_of_rows (sameDefinition_bump _) rfl)).sameContents
    · rw [hrun, final_error]
      have hcounters : ∀ u counters, (Table.SameShown u (u.withCounters counters)) :=
        fun u counters => sameShown_of_rows (sameDefinition_withCounters u counters) rfl
      exact (hsame.trans (hcounters _ _)).sameContents
    · exact absurd (h row rest rfl t ht) htakes
  · have hrun : sqlInsert sql at_ table rows s = (Engine.onTable sql.ext.text table (insertRows
        ⟨sql.ext, at_.now, s.schemaVersionFor table⟩ table rows none) >>=
          commitInsert sql.ext at_.io table) s := bind_of_ok (m := get) rfl
    rcases ht : s.tableOf sql.ext.text table with _ | t
    · obtain ⟨e, s₂, herr, -⟩ := onTable_of_none (m := insertRows ⟨sql.ext, at_.now,
        s.schemaVersionFor table⟩ table rows none) ht
      exact .inl ⟨e, s₂, hrun.trans (bind_of_error herr)⟩
    · obtain ⟨s₂, -, -, hzoom⟩ := onTable_of_some ht
      rcases @insertRows_cases ⟨sql.ext, at_.now, s.schemaVersionFor table⟩
        table none _ (resident_tableOf ht) rows with
        ⟨rfl, hrows⟩ | ⟨row, rest, rfl, ⟨-, e, hrows⟩ | ⟨htakes, -⟩⟩
      · refine .inr ⟨rfl, fun w s' hok => ?_⟩
        rw [hrun] at hok
        obtain ⟨done, s₁, htable, hcommit⟩ := bind_ok.mp hok
        rw [hzoom, zoom, hrows] at htable
        cases htable
        exact (commitInsert_result hcommit).1
      · have herr := hzoom (insertRows ⟨sql.ext, at_.now, s.schemaVersionFor table⟩ table
          (row :: rest) none)
        rw [zoom, hrows] at herr
        exact .inl ⟨e, _, hrun.trans (bind_of_error herr)⟩
      · exact absurd (h row rest rfl t ht) htakes

theorem shows_sqlDelete {whereExpr : Expr X} {limit : Option ℕ}
    (h : ∀ t, s.tableOf sql.ext.text table = some t →
      ∀ idx row, ¬(whereFilter sql table t.schema whereExpr limit).Picks t idx row) :
    s.Shows sql.ext.text (final (sqlDelete sql at_ table whereExpr limit s)) := by
  unfold sqlDelete
  rw [bind_of_ok (m := get) rfl]
  rcases hget : s.getTable table with e | t'
  · exact .refl s
  · dsimp only
    rw [final_onTable_run (w := .data (.delete (whereFilter sql table t'.schema whereExpr limit)))
      rfl]
    refine shows_write _ fun t ht => ?_
    rw [Write.part, final_map, schema_getTable ht hget]
    exact (preserves_sweepRows (fun idx => preserves_deleteRow (h t ht) idx) t
      (.refl t)).sameContents

theorem shows_sqlUpdate {set : List (String × Expr X)} {whereExpr : Expr X} {limit : Option ℕ}
    (h : ∀ t, s.tableOf sql.ext.text table = some t →
      (whereUpdate sql table t.schema set whereExpr limit).ChangesNothing t) :
    s.Shows sql.ext.text (final (sqlUpdate sql at_ table set whereExpr limit s)) := by
  unfold sqlUpdate
  rw [bind_of_ok (m := get) rfl]
  rcases hget : s.getTable table with e | t'
  · exact .refl s
  · dsimp only
    rw [final_onTable_run (w := .data (.update (whereUpdate sql table t'.schema set whereExpr
      limit))) rfl]
    refine shows_write _ fun t ht => ?_
    rw [Write.part, final_map, schema_getTable ht hget]
    exact (preserves_sweepRows (fun idx => preserves_updateRow (h t ht) idx) t
      (.refl t)).sameContents

theorem map_ok {α β : Type} {m : EStateM String Engine α} {g : α → β} {b : β}
    (h : (g <$> m) s = .ok b s') : ∃ a, m s = .ok a s' ∧ g a = b := by
  rw [map_eq_pure_bind] at h
  obtain ⟨a, s₁, hm, h⟩ := bind_ok.mp h
  cases h
  exact ⟨a, hm, rfl⟩

omit [DecidableEq ι] in
theorem ignoresRows_foldlM {columns : List String} {rows : List RowObject}
    (h : IgnoresRows sql at_ table columns rows s) (tally : Tally) :
    s.Shows sql.ext.text (final (rows.foldlM (insertOrIgnore sql at_ table columns) tally s)) ∧
      ∀ tally' s', rows.foldlM (insertOrIgnore sql at_ table columns) tally s = .ok tally' s' →
        tally' = tally := by
  induction rows generalizing s with
  | nil =>
    refine ⟨.refl s, fun tally' s' hrun => ?_⟩
    cases hrun
    rfl
  | cons row rest ih =>
    rw [List.foldlM_cons]
    have hread : insertOrIgnore sql at_ table columns tally row s = _ := bind_of_ok (m := get) rfl
    unfold IgnoresRows at h
    rcases hprobe : probeRow sql s table columns row with _ | e | (_ | _) <;>
      rw [hprobe] at h hread
    case some.error =>
      rw [bind_of_error hread]
      exact ⟨.refl s, fun tally' s' hrun => by cases hrun⟩
    case some.ok.true =>
      rw [bind_of_ok hread]
      exact ih h
    all_goals
      obtain ⟨hrefuses, hrest⟩ := h
      obtain ⟨hshows, ⟨e, s', herr⟩ | ⟨hnil, -⟩⟩ := @shows_sqlInsert _ _ _ at_ _ _ _ hrefuses
      on_goal 2 => cases hnil
      rw [herr, final_error] at hshows hrest
      have hinsert : (tally.inserted <$> sqlInsert sql at_ table [row]) s = .error e s' := by
        rw [map_eq_pure_bind]
        exact bind_of_error herr
      have hrow : insertOrIgnore sql at_ table columns tally row s =
          if isDuplicateConflictError e then .ok tally s' else .error e s' := by
        refine hread.trans ?_
        change onConflict (tally.inserted <$> sqlInsert sql at_ table [row]) (pure tally) s = _
        unfold onConflict
        rw [hinsert]
        rfl
      cases hdup : isDuplicateConflictError e <;> rw [hdup] at hrow
      · rw [bind_of_error hrow]
        exact ⟨hshows, fun tally' s' hrun => by cases hrun⟩
      · rw [bind_of_ok hrow]
        exact ⟨hshows.trans (ih hrest).1, (ih hrest).2⟩

theorem insertOnDuplicate_calm {columns : List String} {rows : List RowObject}
    {assigns : List InsertDupAssign} (h : rows = [] ∨ columns = [] ∨ assigns = [] ∨
      ∃ e, s.getSchema table = .error e) :
    (∃ e, sqlExecInsertOnDuplicate sql at_ table columns rows assigns s = .error e s) ∨
      sqlExecInsertOnDuplicate sql at_ table columns rows assigns s = .ok ⟨0, 0, none⟩ s := by
  unfold sqlExecInsertOnDuplicate
  split
  · exact .inl ⟨_, rfl⟩
  split
  · exact .inl ⟨_, rfl⟩
  rename_i hcolumns hassigns
  rw [bind_of_ok (m := get) rfl]
  rcases hschema : s.getSchema table with e | schema
  · exact .inl ⟨e, rfl⟩
  · rcases h with rfl | hnil | hnil | ⟨e, he⟩
    · exact .inr rfl
    · exact absurd hnil hcolumns
    · exact absurd hnil hassigns
    · cases hschema.symm.trans he

theorem replaceInto_calm {rows : List RowObject}
    (h : rows = [] ∨ ∃ e, s.getSchema table = .error e) :
    final (sqlExecReplaceInto sql at_ table rows s) = s := by
  unfold sqlExecReplaceInto
  rw [bind_of_ok (m := get) rfl]
  rcases hschema : s.getSchema table with e | schema
  · rfl
  · rcases h with rfl | ⟨e, he⟩
    · rfl
    · cases hschema.symm.trans he

/-- A calm statement changes nothing that is shown, and reports no row that an insertion wrote. -/
theorem calm_execPlan {plan : SqlPlan X} (h : Calm sql at_ s plan) :
    s.Shows sql.ext.text (final (execPlan sql at_ plan s)) ∧ ∀ r s',
      execPlan sql at_ plan s = .ok r s' → r.statement = "insert" → r.write.affected = 0 := by
  cases plan with
  | update table set whereExpr limit =>
    rw [execPlan, final_map]
    refine ⟨shows_sqlUpdate h, fun r s' hrun hstatement => ?_⟩
    obtain ⟨w, -, rfl⟩ := map_ok hrun
    exact absurd hstatement (by decide : "update" ≠ "insert")
  | delete table whereExpr limit =>
    rw [execPlan, final_map]
    refine ⟨shows_sqlDelete h, fun r s' hrun hstatement => ?_⟩
    obtain ⟨w, -, rfl⟩ := map_ok hrun
    exact absurd hstatement (by decide : "delete" ≠ "insert")
  | insert mode table columns rows onDuplicate =>
    have hinsert : s.Shows sql.ext.text
        (final (execInsert sql at_ mode table columns rows onDuplicate s)) ∧ ∀ w s',
          execInsert sql at_ mode table columns rows onDuplicate s = .ok w s' → mode ≠ .replace →
            w.affected = 0 := by
      rcases onDuplicate with _ | assigns
      · cases mode with
        | insert =>
          obtain ⟨hshows, ⟨e, s₁, herr⟩ | ⟨-, hnone⟩⟩ := @shows_sqlInsert _ _ _ at_ _ _ _ h
          · refine ⟨hshows, fun w s' hrun _ => ?_⟩
            cases herr.symm.trans hrun
          · exact ⟨hshows, fun w s' hrun _ => hnone w s' hrun⟩
        | ignore =>
          obtain ⟨hshows, hnone⟩ := ignoresRows_foldlM h {}
          rw [execInsert, sqlExecInsertIgnore, final_map]
          refine ⟨hshows, fun w s' hrun _ => ?_⟩
          obtain ⟨tally, htally, rfl⟩ := map_ok hrun
          rw [hnone tally s' htally]
          rfl
        | replace =>
          rw [execInsert, replaceInto_calm h]
          exact ⟨.refl s, fun w s' _ hmode => absurd rfl hmode⟩
      · change _ ∧ ∀ w s', sqlExecInsertOnDuplicate sql at_ table columns rows assigns s = _ → _
        rw [execInsert]
        rcases @insertOnDuplicate_calm _ _ _ sql at_ _ _ _ _ _ h with ⟨e, hrun⟩ | hrun <;> rw [hrun]
        · exact ⟨.refl s, fun w s' hok => by cases hok⟩
        · refine ⟨.refl s, fun w s' hok _ => ?_⟩
          cases hok
          rfl
    rw [execPlan, final_map]
    refine ⟨hinsert.1, fun r s' hrun hstatement => ?_⟩
    obtain ⟨w, hw, rfl⟩ := map_ok hrun
    refine hinsert.2 w s' hw fun hmode => ?_
    rw [hmode] at hstatement
    exact absurd hstatement (by decide : "replace" ≠ "insert")

end Effects

section Writable
variable {X ι : Type} [DecidableEq ι] {sql : Sql X ι} {at_ : Surroundings} {table : TableKey}
  {P : Engine → Prop}

theorem preserves_map {α β : Type} {m : EStateM String Engine α} (h : Preserves P m) (g : α → β) :
    Preserves P (g <$> m) := by
  intro s hs
  rw [final_map]
  exact h s hs

theorem preserves_onConflict {α : Type} {m other : EStateM String Engine α} (hm : Preserves P m)
    (hother : Preserves P other) : Preserves P (onConflict m other) := by
  intro s hs
  have hrun := hm s hs
  unfold onConflict
  rcases h : m s with ⟨a, s'⟩ | ⟨e, s'⟩ <;> rw [h] at hrun
  · exact hrun
  · dsimp only
    split
    · exact hother s' hrun
    · exact hrun

/-- A computation that first reads the engine. -/
theorem preserves_reading {α : Type} {k : Engine → EStateM String Engine α}
    (h : ∀ s, Preserves P (k s)) : Preserves P (get >>= k) := by
  intro s hs
  rw [bind_of_ok (m := get) rfl]
  exact h s s hs

omit [DecidableEq ι] in
theorem writable_sqlInsert (hquiet : at_.io = {}) (rows : List RowObject) :
    Preserves Engine.Writable (sqlInsert sql at_ table rows) := by
  rw [sqlInsert, hquiet]
  exact writable_dataInsert rows none

theorem writable_sqlUpdate (hquiet : at_.io = {}) (set : List (String × Expr X))
    (whereExpr : Expr X) (limit : Option ℕ) :
    Preserves Engine.Writable (sqlUpdate sql at_ table set whereExpr limit) := by
  unfold sqlUpdate
  rw [hquiet]
  refine preserves_reading fun s => ?_
  rcases s.getTable table with e | t
  · exact preserves_throw e
  · exact writable_sweep _ _

theorem writable_sqlDelete (hquiet : at_.io = {}) (whereExpr : Expr X) (limit : Option ℕ) :
    Preserves Engine.Writable (sqlDelete sql at_ table whereExpr limit) := by
  unfold sqlDelete
  rw [hquiet]
  refine preserves_reading fun s => ?_
  rcases s.getTable table with e | t
  · exact preserves_throw e
  · exact writable_sweep _ _

theorem writable_updateConflicting (hquiet : at_.io = {}) (set : List (String × Expr X))
    (predicates : List (Expr X)) :
    Preserves Engine.Writable (updateConflicting sql at_ table set predicates) := by
  induction predicates with
  | nil => exact preserves_throw _
  | cons whereExpr rest ih =>
    refine (writable_sqlUpdate hquiet set whereExpr (some 1)).bind fun result => ?_
    split
    · exact preserves_pure _
    · exact ih

theorem writable_execInsert (hquiet : at_.io = {}) (mode : InsertMode) (columns : List String)
    (rows : List RowObject) (onDuplicate : Option (List InsertDupAssign)) :
    Preserves Engine.Writable (execInsert sql at_ mode table columns rows onDuplicate) := by
  have hinsert := fun row => @writable_sqlInsert _ _ sql _ table hquiet [row]
  rcases onDuplicate with _ | assigns
  · cases mode with
    | insert => exact writable_sqlInsert hquiet rows
    | ignore =>
      refine preserves_map (Preserves.foldlM (fun tally row => ?_) rows ({} : Tally)) _
      refine preserves_reading fun s => ?_
      rcases probeRow sql s table columns row with _ | e | (_ | _)
      · exact preserves_onConflict (preserves_map (hinsert row) _) (preserves_pure _)
      · exact preserves_throw e
      · exact preserves_onConflict (preserves_map (hinsert row) _) (preserves_pure _)
      · exact preserves_pure _
    | replace =>
      refine preserves_reading fun s => ?_
      rcases s.getSchema table with e | schema
      · exact preserves_throw e
      · dsimp only
        refine preserves_map (Preserves.foldlM (fun tally row => ?_) rows ({} : Tally)) _
        refine preserves_onConflict (preserves_map (hinsert row) _) ?_
        dsimp only
        split
        · exact preserves_throw _
        · refine (Preserves.foldlM (fun deleted whereExpr => ?_) _ 0).bind fun deleted =>
            (hinsert row).bind fun inserted => preserves_pure _
          exact (writable_sqlDelete hquiet whereExpr none).bind fun removed => preserves_pure _
  · change Preserves _ (sqlExecInsertOnDuplicate sql at_ table columns rows assigns)
    unfold sqlExecInsertOnDuplicate
    split
    · exact preserves_throw _
    split
    · exact preserves_throw _
    refine preserves_reading fun s => ?_
    rcases s.getSchema table with e | schema
    · exact preserves_throw e
    · dsimp only
      refine preserves_map (Preserves.foldlM (fun tally row => ?_) rows ({} : Tally)) _
      refine preserves_onConflict (preserves_map (hinsert row) _) ?_
      exact (writable_updateConflicting hquiet _ _).bind fun affected => preserves_pure _

theorem writable_sqlExec (hquiet : at_.io = {}) (text : String) (defaultDb : Option String) :
    Preserves Engine.Writable (sqlExec sql at_ text defaultDb) := by
  unfold sqlExec
  rcases sql.parseSqlPlan (sql.extractSkeinAsOfHint text) defaultDb with e | plan
  · exact preserves_throw e
  · cases plan with
    | insert mode table columns rows onDuplicate =>
      exact preserves_map (writable_execInsert hquiet mode columns rows onDuplicate) _
    | update table set whereExpr limit =>
      exact preserves_map (writable_sqlUpdate hquiet set whereExpr limit) _
    | delete table whereExpr limit =>
      exact preserves_map (writable_sqlDelete hquiet whereExpr limit) _

end Writable

end SkeinDB.Sessions
