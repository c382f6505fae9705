import SkeinDB.Sessions.Effects
import SkeinDB.Transition.Runs

/-!
# Transactions that roll back

Where every statement since BEGIN changes nothing or is an insertion of one row that its undo
singles out, ROLLBACK brings back what the tables showed.
-/
namespace SkeinDB.Sessions
open SkeinDB.Queries SkeinDB.Tables SkeinDB.Transition

section One
variable {X ι : Type} [DecidableEq ι] {sql : Sql X ι} {at_ : Surroundings} {s s' : Engine}
  {table : TableKey} {t : Table} {row : RowObject}

theorem tally_inserted {w : WriteResult} (h : w.affected = 1) :
    (Tally.inserted {} w).result.affected = 1 ∧
      (Tally.inserted {} w).result.lastInsertId = w.lastInsertId := by
  constructor
  · change min (0 + w.affected) u64Max = 1
    rw [h]
    decide
  · change (if w.lastInsertId = 0 then 0 else w.lastInsertId) = w.lastInsertId
    split
    · rename_i hzero
      exact hzero.symm
    · rfl

/-- What an insertion of one row does that the table takes, when it gets as far as the table. -/
structure AddsOne (sql : Sql X ι) (table : TableKey) (t : Table) (row : RowObject) (s s' : Engine)
    (w : WriteResult) : Prop where
  affected : w.affected = 1
  lastInsertId : w.lastInsertId = (applyDefaultsAndAutoinc t.schema row 0).lastInsertId
  writable : s'.Writable
  adds : s.Adds sql.ext.text table (applyDefaultsAndAutoinc t.schema row 0).row s'

omit [DecidableEq ι] in
theorem sqlInsert_one (hquiet : at_.io = {}) (hs : s.Writable)
    (ht : s.tableOf sql.ext.text table = some t)
    (h : ¬RefusesInsert sql.ext.text (t.rebuildSecondaryIndexesIfStale sql.ext.text) row) :
    ∃ w s', sqlInsert sql at_ table [row] s = .ok w s' ∧ AddsOne sql table t row s s' w := by
  rw [sqlInsert, hquiet]
  obtain ⟨w, s', hrun, haffected, hid, hs', hadds⟩ := dataInsert_one hs ht h
  exact ⟨w, s', hrun, haffected, hid, hs', hadds⟩

theorem execInsert_one (hquiet : at_.io = {}) (hs : s.Writable)
    (ht : s.tableOf sql.ext.text table = some t)
    (h : ¬RefusesInsert sql.ext.text (t.rebuildSecondaryIndexesIfStale sql.ext.text) row)
    {mode : InsertMode} (hmode : mode ≠ .replace) (columns : List String)
    (onDuplicate : Option (List InsertDupAssign)) :
    (∃ e, execInsert sql at_ mode table columns [row] onDuplicate s = .error e s) ∨
    (∃ w, execInsert sql at_ mode table columns [row] onDuplicate s = .ok w s ∧ w.affected = 0) ∨
    ∃ w s', execInsert sql at_ mode table columns [row] onDuplicate s = .ok w s' ∧
      AddsOne sql table t row s s' w := by
  obtain ⟨w, s', hrun, hone⟩ := sqlInsert_one hquiet hs ht h
  have htally : ∀ other, onConflict (Tally.inserted {} <$> sqlInsert sql at_ table [row]) other s =
      .ok (Tally.inserted {} w) s' := by
    intro other
    have hmap : (Tally.inserted {} <$> sqlInsert sql at_ table [row]) s =
        .ok (Tally.inserted {} w) s' := by
      rw [map_eq_pure_bind]
      exact bind_of_ok hrun
    unfold onConflict
    rw [hmap]
  have hresult : AddsOne sql table t row s s' (Tally.inserted {} w).result := by
    obtain ⟨haffected, hid⟩ := tally_inserted hone.affected
    exact ⟨haffected, hid.trans hone.lastInsertId, hone.writable, hone.adds⟩
  rcases onDuplicate with _ | assigns
  · cases mode with
    | insert => exact .inr (.inr ⟨w, s', hrun, hone⟩)
    | replace => exact absurd rfl hmode
    | ignore =>
      have hexec : execInsert sql at_ .ignore table columns [row] none s = (Tally.result <$>
        ([row].foldlM (insertOrIgnore sql at_ table columns) {})) s := rfl
      rw [hexec, map_eq_pure_bind, List.foldlM_cons, bind_assoc]
      have hread : insertOrIgnore sql at_ table columns {} row s = _ := bind_of_ok (m := get) rfl
      rcases hprobe : probeRow sql s table columns row with _ | e | (_ | _) <;>
        rw [hprobe] at hread
      · rw [bind_of_ok (hread.trans (htally _))]
        exact .inr (.inr ⟨_, s', rfl, hresult⟩)
      · rw [bind_of_error hread]
        exact .inl ⟨e, rfl⟩
      · rw [bind_of_ok (hread.trans (htally _))]
        exact .inr (.inr ⟨_, s', rfl, hresult⟩)
      · rw [bind_of_ok hread]
        exact .inr (.inl ⟨_, rfl, rfl⟩)
  · have hexec : execInsert sql at_ mode table columns [row] (some assigns) s =
        sqlExecInsertOnDuplicate sql at_ table columns [row] assigns s := rfl
    rw [hexec]
    unfold sqlExecInsertOnDuplicate
    split
    · exact .inl ⟨_, rfl⟩
    split
    · exact .inl ⟨_, rfl⟩
    rw [bind_of_ok (m := get) rfl]
    rcases s.getSchema table with e | schema
    · exact .inl ⟨e, rfl⟩
    · dsimp only
      rw [map_eq_pure_bind, List.foldlM_cons, bind_assoc]
      have hrow : insertOrUpdate sql at_ table schema assigns {} row s =
          .ok (Tally.inserted {} w) s' := htally _
      rw [bind_of_ok hrow]
      exact .inr (.inr ⟨_, s', rfl, hresult⟩)

end One

section Conditions
variable {X ι : Type} [DecidableEq ι] (sql : MySql X ι)

/-- What a condition says of a row. -/
def whereMatches (table : TableKey) (schema : TableSchema) (whereExpr : Expr X) (row : RowObject) :
    Except String Bool :=
  (whereFilter sql.toSql table schema whereExpr none).matches 0 row

/-- The text that undoes the insertion of a row deletes that row, and none of those that the table
shows. The statement parser is a parameter, so that it reads the text as this deletion is asked of
it here. -/
def UndoFits (table : TableKey) (t : Table) (row : RowObject) : Prop :=
  ∃ pkName pkLiteral whereExpr, t.schema.primaryKey = [pkName] ∧
    undoLiteral sql t.schema pkName [row]
      (applyDefaultsAndAutoinc t.schema row 0).lastInsertId = some pkLiteral ∧
    sql.parseSqlPlan (sql.extractSkeinAsOfHint (undoText table pkName pkLiteral)) none =
      .ok (.delete table whereExpr (some 1)) ∧
    (∀ shown ∈ t.visible, whereMatches sql table t.schema whereExpr shown = .ok false) ∧
    whereMatches sql table t.schema whereExpr (applyDefaultsAndAutoinc t.schema row 0).row = .ok true

/-- An insertion of one row, which its table takes, and whose undo fits. -/
def InsertsOne (s : Engine) (plan : SqlPlan X) : Prop :=
  ∃ mode table columns row onDuplicate t, plan = .insert mode table columns [row] onDuplicate ∧
    mode ≠ .replace ∧ s.tableOf sql.ext.text table = some t ∧
    ¬RefusesInsert sql.ext.text (t.rebuildSecondaryIndexesIfStale sql.ext.text) row ∧
    UndoFits sql table t row

def CalmText (at_ : Surroundings) (text : String) (defaultDb : Option String) (s : Engine) : Prop :=
  ∀ plan, sql.parseSqlPlan (sql.extractSkeinAsOfHint text) defaultDb = .ok plan →
    Calm sql.toSql at_ s plan

def CalmTexts (at_ : Surroundings) (defaultDb : Option String) : List String → Engine → Prop
  | [], _ => True
  | text :: rest, s => CalmText sql at_ text defaultDb s ∧
    CalmTexts at_ defaultDb rest (final (sqlExec sql.toSql at_ text defaultDb s))

/-- A command of a session, with the disk and the clock during it. -/
structure Turn where
  command : MySqlCommand
  at_ : Surroundings

/-- A statement that writes rows, and that changes nothing or has an undo that fits; the disk takes
what is written. -/
def Turn.Clean (x : Server) (turn : Turn) : Prop :=
  turn.at_.io = {} ∧
  match turn.command with
  | .statement text => CalmText sql turn.at_ text x.session.defaultDb x.engine ∨
    sql.extractSkeinAsOfHint text = text ∧ ∃ plan,
      sql.parseSqlPlan text x.session.defaultDb = .ok plan ∧ InsertsOne sql x.engine plan
  | .truncate table => CalmText sql turn.at_ ("DELETE FROM " ++ table) x.session.defaultDb x.engine
  | .insertSelect text => ∀ texts,
    sql.insertsOfSelect text x.session.defaultDb x.engine = .ok texts →
      CalmTexts sql turn.at_ x.session.defaultDb texts x.engine
  | _ => False

def Turn.step (x : Server) (turn : Turn) : Option Server :=
  some (final (mysqlExecuteSql sql turn.at_ turn.command x))

/-- From any state that shows what the engine does, the undo brings back what another showed. -/
def Restores (s₀ : Engine) (undoSql : List String) (s : Engine) : Prop :=
  ∀ at_ s', at_.io = {} → s'.Writable → s.Shows sql.ext.text s' → ∃ s'',
    mysqlRollbackTransaction sql at_ undoSql s' = .ok () s'' ∧ s''.Writable ∧
      s₀.Shows sql.ext.text s''

end Conditions

section Undo
variable {X ι : Type} [DecidableEq ι] {sql : MySql X ι} {at_ : Surroundings} {s₀ s s' : Engine}
  {table : TableKey} {t u : Table} {row : RowObject} {undoSql : List String} {text : String}

theorem restores_nil (s : Engine) : Restores sql s [] s :=
  fun _ s' _ hs' hshows => ⟨s', rfl, hs', hshows⟩

theorem Restores.mono (h : Restores sql s₀ undoSql s) (hshows : s.Shows sql.ext.text s') :
    Restores sql s₀ undoSql s' :=
  fun at_ s'' hquiet hs'' hshows' => h at_ s'' hquiet hs'' (hshows.trans hshows')

/-- One more undo is executed before the others. -/
theorem Restores.push (h : Restores sql s₀ undoSql s)
    (hundo : ∀ at_ s'', at_.io = {} → s''.Writable → s'.Shows sql.ext.text s'' → ∃ r s₁,
      sqlExec sql.toSql at_ text none s'' = .ok r s₁ ∧ s₁.Writable ∧ s.Shows sql.ext.text s₁) :
    Restores sql s₀ (undoSql ++ [text]) s' := by
  intro at_ s'' hquiet hs'' hshows
  obtain ⟨r, s₁, hrun, hs₁, hback⟩ := hundo at_ s'' hquiet hs'' hshows
  obtain ⟨s₂, hrest, hs₂, hall⟩ := h at_ s₁ hquiet hs₁ hback
  refine ⟨s₂, ?_, hs₂, hall⟩
  unfold mysqlRollbackTransaction at hrest ⊢
  rw [List.reverse_append, List.reverse_singleton, List.singleton_append, List.foldlM_cons]
  refine (bind_of_ok (a := ()) (t := s₁) ?_).trans hrest
  exact bind_of_ok hrun

theorem whereFilter_congr {schema schema' : TableSchema} (h : schema'.columns = schema.columns)
    (whereExpr : Expr X) (limit : Option ℕ) :
    whereFilter sql.toSql table schema' whereExpr limit =
      whereFilter sql.toSql table schema whereExpr limit := by
  unfold whereFilter
  simp only [compile_congr h]

/-- The undo of an insertion takes the row away again. -/
theorem undo_insert (hadds : s.Adds sql.ext.text table
      (applyDefaultsAndAutoinc t.schema row 0).row s') (ht : s.tableOf sql.ext.text table = some t)
    {whereExpr : Expr X}
    (hparse : sql.parseSqlPlan (sql.extractSkeinAsOfHint text) none =
      .ok (.delete table whereExpr (some 1)))
    (hpass : ∀ shown ∈ t.visible, whereMatches sql table t.schema whereExpr shown = .ok false)
    (htake : whereMatches sql table t.schema whereExpr
      (applyDefaultsAndAutoinc t.schema row 0).row = .ok true) :
    ∀ at_ s'', at_.io = {} → s''.Writable → s'.Shows sql.ext.text s'' → ∃ r s₁,
      sqlExec sql.toSql at_ text none s'' = .ok r s₁ ∧ s₁.Writable ∧ s.Shows sql.ext.text s₁ := by
  intro at_ s'' hquiet hs'' hshows
  obtain ⟨t₁, ht₁, hsame₁, hvisible₁⟩ := hadds.own t ht
  obtain ⟨t₂, ht₂, hsame₂⟩ := hshows table t₁ ht₁
  have hsame := hsame₁.trans hsame₂.definition
  have hvisible := hsame₂.visible.trans hvisible₁
  obtain ⟨t₃, ht₃⟩ := getTable_of_tableOf ht₂
  have hcolumns : t₃.schema.columns = t.schema.columns := by
    rw [schema_getTable ht₂ ht₃]
    exact hsame.columns
  obtain ⟨w, s₁, hdelete, hs₁, hown, hothers⟩ := @dataDelete_one _ at_.now _ _ _ hs'' ht₂
    (whereFilter sql.toSql table t.schema whereExpr (some 1)) _ _ rfl hvisible
    (fun _ shown hshown => hpass shown hshown) fun _ => htake
  have hexec : sqlExec sql.toSql at_ text none s'' = .ok ⟨"delete", w⟩ s₁ := by
    unfold sqlExec
    rw [hparse]
    dsimp only
    rw [execPlan, map_eq_pure_bind]
    refine (bind_of_ok (a := w) (t := s₁) ?_).trans rfl
    unfold sqlDelete
    rw [bind_of_ok (m := get) rfl, ht₃, hquiet]
    dsimp only
    rw [whereFilter_congr hcolumns]
    exact hdelete
  refine ⟨_, s₁, hexec, hs₁, fun key t' ht' => ?_⟩
  by_cases hkey : key = table
  · subst hkey
    cases ht.symm.trans ht'
    obtain ⟨v, hv, hdefinition, hshown⟩ := hown
    exact ⟨v, hv, hsame.trans hdefinition, hshown⟩
  · obtain ⟨v₁, hv₁, hsameContents₁⟩ := hadds.others key hkey t' ht'
    obtain ⟨v₂, hv₂, hsameContents₂⟩ := hshows key v₁ hv₁
    obtain ⟨v₃, hv₃, hsameContents₃⟩ := hothers key hkey v₂ hv₂
    exact ⟨v₃, hv₃, (hsameContents₁.trans hsameContents₂).trans hsameContents₃⟩

end Undo

/-- A transaction whose undo brings back what the tables showed. -/
structure InTransaction {X ι : Type} [DecidableEq ι] (sql : MySql X ι) (s₀ : Engine) (x : Server) :
    Prop where
  active : x.session.txActive = true
  writable : x.engine.Writable
  restores : Restores sql s₀ x.session.txUndoSql x.engine

section Turns
variable {X ι : Type} [DecidableEq ι] {sql : MySql X ι} {at_ : Surroundings} {s₀ s s' : Engine}
  {x y : Server} {table : TableKey} {t : Table} {text : String}

theorem getSchema_of_tableOf {text : LitsText} (ht : s.tableOf text table = some t) :
    s.getSchema table = .ok t.schema := by
  obtain ⟨schema, hschema, h⟩ := Option.bind_eq_some_iff.mp ht
  obtain ⟨d, -, h⟩ := Option.bind_eq_some_iff.mp h
  obtain ⟨d', -, rfl⟩ := Option.map_eq_some_iff.mp h
  rcases hs : s.getSchema table with e | schema' <;> rw [hs] at hschema <;> cases hschema
  rfl

omit [DecidableEq ι] in
theorem record_calm {session : MySqlSession} {r : SqlResult}
    (h : r.statement = "insert" → r.write.affected = 0) (hactive : session.txActive = true) :
    (session.record sql s text r).txActive = true ∧
      (session.record sql s text r).txUndoSql = session.txUndoSql := by
  unfold MySqlSession.record
  split
  · refine ⟨rfl, ?_⟩
    dsimp only
    split
    · rename_i hinsert
      have hnone : mysqlBuildInsertUndoSql sql s text session.defaultDb r.write = none := by
        unfold mysqlBuildInsertUndoSql
        rw [if_pos (by rw [h hinsert]; decide)]
      rw [hnone]
      exact List.append_nil _
    · exact List.append_nil _
  · exact ⟨hactive, rfl⟩

/-- A calm statement leaves a transaction as it is. -/
theorem InTransaction.calm (h : InTransaction sql s₀ x) (hcalm : CalmText sql at_ text
      x.session.defaultDb x.engine) (hquiet : at_.io = {}) :
    InTransaction sql s₀ { x with
      engine := final (sqlExec sql.toSql at_ text x.session.defaultDb x.engine) } ∧
    ∀ r s', sqlExec sql.toSql at_ text x.session.defaultDb x.engine = .ok r s' →
      r.statement = "insert" → r.write.affected = 0 := by
  have hwritable := @writable_sqlExec _ _ _ sql.toSql _ hquiet text x.session.defaultDb x.engine
    h.writable
  have heffect : x.engine.Shows sql.ext.text
      (final (sqlExec sql.toSql at_ text x.session.defaultDb x.engine)) ∧ ∀ r s',
        sqlExec sql.toSql at_ text x.session.defaultDb x.engine = .ok r s' →
          r.statement = "insert" → r.write.affected = 0 := by
    unfold sqlExec
    rcases hparse : sql.parseSqlPlan (sql.extractSkeinAsOfHint text) x.session.defaultDb with e | plan
    · exact ⟨.refl _, fun r s' hrun => by cases hrun⟩
    · exact calm_execPlan (hcalm plan hparse)
  exact ⟨⟨h.active, hwritable, h.restores.mono heffect.1⟩, heffect.2⟩

theorem onEngine_ok {α : Type} {m : EStateM String Engine α} {a : α}
    (h : m x.engine = .ok a s') : onEngine m x = .ok a { x with engine := s' } := by
  unfold onEngine zoom
  rw [h]

theorem onEngine_error {α : Type} {m : EStateM String Engine α} {e : String}
    (h : m x.engine = .error e s') : onEngine m x = .error e { x with engine := s' } := by
  unfold onEngine zoom
  rw [h]

theorem final_executeUntracked (text : String) (defaultDb : Option String) :
    final (executeUntracked sql at_ text defaultDb x) =
      { x with engine := final (sqlExec sql.toSql at_ text defaultDb x.engine) } := by
  unfold executeUntracked
  rcases hrun : sqlExec sql.toSql at_ text defaultDb x.engine with ⟨r, s'⟩ | ⟨e, s'⟩
  · rw [bind_of_ok (onEngine_ok hrun)]
    rfl
  · rw [bind_of_error (onEngine_error hrun)]
    rfl

theorem InTransaction.calmTexts {texts : List String} {defaultDb : Option String}
    (h : InTransaction sql s₀ x) (hdb : x.session.defaultDb = defaultDb)
    (hcalm : CalmTexts sql at_ defaultDb texts x.engine) (hquiet : at_.io = {}) :
    InTransaction sql s₀ (final ((texts.foldlM
      (fun _ text => executeUntracked sql at_ text defaultDb) () : EStateM String Server Unit) x)) := by
  induction texts generalizing x with
  | nil => exact h
  | cons text rest ih =>
    subst hdb
    obtain ⟨hfirst, hrest⟩ := hcalm
    have hnext := (h.calm hfirst hquiet).1
    rw [← final_executeUntracked] at hnext
    have hengine := congrArg Server.engine
      (@final_executeUntracked _ _ _ sql at_ x text x.session.defaultDb)
    have hdb := congrArg (fun y : Server => y.session.defaultDb)
      (@final_executeUntracked _ _ _ sql at_ x text x.session.defaultDb)
    dsimp only at hengine hdb
    rw [List.foldlM_cons]
    rcases hstep : executeUntracked sql at_ text x.session.defaultDb x with ⟨_, y⟩ | ⟨e, y⟩ <;>
      rw [hstep] at hnext hengine hdb
    · rw [bind_of_ok hstep]
      rw [final_ok] at hnext hengine hdb
      rw [← hengine] at hrest
      exact ih hnext hdb hrest
    · rw [bind_of_error hstep]
      exact hnext

/-- An insertion of one row adds its undo, or does nothing. -/
theorem InTransaction.insertsOne (h : InTransaction sql s₀ x) (hquiet : at_.io = {})
    (htext : sql.extractSkeinAsOfHint text = text) {plan : SqlPlan X}
    (hparse : sql.parseSqlPlan text x.session.defaultDb = .ok plan)
    (hone : InsertsOne sql x.engine plan) :
    InTransaction sql s₀ (final (mysqlExecuteSql sql at_ (.statement text) x)) := by
  obtain ⟨mode, table, columns, row, onDuplicate, t, rfl, hmode, ht, htakes, hfits⟩ := hone
  have hname : (if mode = .replace then "replace" else "insert") = "insert" := if_neg hmode
  have hexec : sqlExec sql.toSql at_ text x.session.defaultDb x.engine =
      ((fun write => SqlResult.mk "insert" write) <$>
        execInsert sql.toSql at_ mode table columns [row] onDuplicate) x.engine := by
    unfold sqlExec
    rw [htext, hparse]
    dsimp only
    rw [execPlan, hname]
  rw [map_eq_pure_bind] at hexec
  have hread : mysqlExecuteSql sql at_ (.statement text) x = (do
      let result ← onEngine (sqlExec sql.toSql at_ text x.session.defaultDb)
      modify (Server.record sql text result)) x :=
    bind_of_ok (m := get) rfl
  rw [hread]
  rcases execInsert_one hquiet h.writable ht htakes hmode columns onDuplicate with ⟨e, hrun⟩ |
    ⟨w, hrun, hzero⟩ | ⟨w, s', hrun, hadds⟩
  · rw [bind_of_error hrun] at hexec
    rw [bind_of_error (onEngine_error hexec)]
    exact h
  · rw [bind_of_ok hrun] at hexec
    rw [bind_of_ok (onEngine_ok hexec)]
    obtain ⟨hactive, hundo⟩ := @record_calm _ _ sql x.engine text _
      ⟨"insert", w⟩ (fun _ => hzero) h.active
    refine ⟨hactive, h.writable, ?_⟩
    change Restores sql s₀ (x.session.record sql x.engine text ⟨"insert", w⟩).txUndoSql x.engine
    rw [hundo]
    exact h.restores
  · rw [bind_of_ok hrun] at hexec
    rw [bind_of_ok (onEngine_ok hexec)]
    obtain ⟨pkName, pkLiteral, whereExpr, hpk, hliteral, hdelete, hpass, htake⟩ := hfits
    obtain ⟨u, hu, hsame, -⟩ := hadds.adds.own t ht
    have hschema := getSchema_of_tableOf hu
    have hundo : mysqlBuildInsertUndoSql sql s' text x.session.defaultDb w =
        some (undoText table pkName pkLiteral) := by
      unfold mysqlBuildInsertUndoSql
      rw [if_neg (by rw [hadds.affected]; decide), hparse]
      dsimp only
      rw [hschema]
      dsimp only
      rw [hsame.primaryKey, hpk]
      dsimp only
      have hkept : undoLiteral sql u.schema pkName [row] w.lastInsertId = some pkLiteral := by
        unfold undoLiteral at hliteral ⊢
        rw [hsame.columns, hadds.lastInsertId]
        exact hliteral
      rw [hkept]
      rfl
    have hrecord : x.session.record sql s' text ⟨"insert", w⟩ = { x.session with
        txActive := true
        txUndoSql := x.session.txUndoSql ++ [undoText table pkName pkLiteral] } := by
      unfold MySqlSession.record
      have hlisted : "insert" ∈ ["insert", "update", "delete"] := by decide
      rw [if_pos ⟨hlisted, by rw [h.active, Bool.or_true]⟩, if_pos rfl, hundo]
      rfl
    refine ⟨?_, hadds.writable, ?_⟩
    · change (x.session.record sql s' text ⟨"insert", w⟩).txActive = true
      rw [hrecord]
    · change Restores sql s₀ (x.session.record sql s' text ⟨"insert", w⟩).txUndoSql s'
      rw [hrecord]
      exact h.restores.push (undo_insert hadds.adds ht hdelete hpass htake)

/-- A clean turn leaves a transaction whose undo brings back what the tables showed. -/
theorem keeps_inTransaction (sql : MySql X ι) (s₀ : Engine) :
    Keeps (Turn.step sql) (Turn.Clean sql) (InTransaction sql s₀) := by
  rintro x turn y hx ⟨hquiet, hclean⟩ hstep
  cases hstep
  obtain ⟨command, at_⟩ := turn
  cases command with
  | setAutocommit enabled => exact hclean.elim
  | startTransaction => exact hclean.elim
  | commit => exact hclean.elim
  | rollback => exact hclean.elim
  | truncate table =>
    have hrun : mysqlExecuteSql sql at_ (.truncate table) x =
        executeUntracked sql at_ ("DELETE FROM " ++ table) x.session.defaultDb x :=
      bind_of_ok (m := get) rfl
    rw [hrun, final_executeUntracked]
    exact (hx.calm hclean hquiet).1
  | insertSelect text =>
    have hrun : mysqlExecuteSql sql at_ (.insertSelect text) x = _ := bind_of_ok (m := get) rfl
    rcases htexts : sql.insertsOfSelect text x.session.defaultDb x.engine with e | texts <;>
      rw [htexts] at hrun <;> rw [hrun]
    · exact hx
    · exact hx.calmTexts rfl (hclean texts htexts) hquiet
  | statement text =>
    rcases hclean with hcalm | ⟨htext, plan, hparse, hone⟩
    · obtain ⟨hnext, hnone⟩ := hx.calm hcalm hquiet
      have hread : mysqlExecuteSql sql at_ (.statement text) x = (do
          let result ← onEngine (sqlExec sql.toSql at_ text x.session.defaultDb)
          modify (Server.record sql text result)) x := bind_of_ok (m := get) rfl
      rw [hread]
      rcases hrun : sqlExec sql.toSql at_ text x.session.defaultDb x.engine with ⟨r, s'⟩ | ⟨e, s'⟩ <;>
        rw [hrun] at hnext
      · rw [bind_of_ok (onEngine_ok hrun)]
        obtain ⟨hactive, hundo⟩ := @record_calm _ _ sql s' text _ r
          (hnone r s' hrun) hx.active
        refine ⟨hactive, hnext.writable, ?_⟩
        change Restores sql s₀ (x.session.record sql s' text r).txUndoSql s'
        rw [hundo]
        exact hnext.restores
      · rw [bind_of_error (onEngine_error hrun)]
        exact hnext
    · exact hx.insertsOne hquiet htext hparse hone

theorem exists_run (sql : MySql X ι) (turns : List Turn) (x : Server) :
    ∃ y, run (Turn.step sql) x turns = some y := by
  induction turns generalizing x with
  | nil => exact ⟨x, rfl⟩
  | cons turn turns ih => exact ih _

/-- ROLLBACK restores the state: it succeeds, and every table shows what it showed at BEGIN. -/
theorem rollback_restores (sql : MySql X ι) (x : Server) (atBegin atRollback : Surroundings)
    (turns : List Turn) (hwritable : x.engine.Writable) (hquiet : atRollback.io = {})
    (hclean : Meets (Turn.step sql) (Turn.Clean sql)
      (final (mysqlExecuteSql sql atBegin .startTransaction x)) turns) :
    ∃ y z, run (Turn.step sql) (final (mysqlExecuteSql sql atBegin .startTransaction x)) turns =
        some y ∧ mysqlExecuteSql sql atRollback .rollback y = .ok () z ∧
      x.engine.Shows sql.ext.text z.engine := by
  have hbegin : InTransaction sql x.engine
      (final (mysqlExecuteSql sql atBegin .startTransaction x)) :=
    ⟨rfl, hwritable, restores_nil x.engine⟩
  obtain ⟨y, hrun⟩ := exists_run sql turns
    (final (mysqlExecuteSql sql atBegin .startTransaction x))
  have hy := (keeps_inTransaction sql x.engine).run hbegin hclean hrun
  obtain ⟨s, hback, -, hshows⟩ := hy.restores atRollback y.engine hquiet hy.writable (.refl _)
  have hread : mysqlExecuteSql sql atRollback .rollback y = (do
      onEngine (mysqlRollbackTransaction sql atRollback y.session.txUndoSql)
      modify Server.ended) y := bind_of_ok (m := get) rfl
  refine ⟨y, Server.ended { y with engine := s }, hrun, ?_, hshows⟩
  rw [hread, bind_of_ok (onEngine_ok hback)]
  rfl

end Turns

section Samples

def ordersKey : TableKey := ⟨"shop", "orders"⟩

def ordersSchema : TableSchema where
  columns := [⟨"id", "i64", false, false⟩]
  primaryKey := ["id"]

def orderRow (id : ℤ) : RowObject := Function.update (fun _ => none) "id" (some (.i64 id))

/-- A table with no orders, or with some. -/
def ordersEngine (data : TableData) : Engine where
  catalog := AList.insert "shop" (AList.insert "orders" ordersSchema ∅) ∅
  tables := Function.update (fun _ => none) ordersKey (some data)

def litsText : LitsText := fun lits =>
  "[" ++ String.intercalate "," (lits.map fun
    | .i64 v => "\x7b\"t\":\"i64\",\"v\":" ++ toString v ++ "\x7d"
    | _ => "\x7b\"t\":\"null\"\x7d") ++ "]"

/-- The plans of an insertion, of its undo and of a deletion of all orders. -/
def parseOrders (text : String) (_ : Option String) : Except String (SqlPlan Empty) :=
  if text = "INSERT INTO orders (id) VALUES (1)" then
    .ok (.insert .insert ordersKey ["id"] [orderRow 1] none)
  else if text = undoText ordersKey "id" "1" then
    .ok (.delete ordersKey (eqExpr "id" (.i64 1)) (some 1))
  else if text = "DELETE FROM orders" then .ok (.delete ordersKey (.lit (.bool true)) none)
  else .error "invalid_request: unsupported statement"

def ordersSql : MySql Empty Unit where
  toSemantics := numberSemantics
  ext := { text := litsText, rowEtag := fun _ version => toString version,
           embeddingId := fun dims _ _ => toString dims }
  ids := ⟨fun _ => none, fun _ _ _ => none⟩
  flags _ := none
  extractSkeinAsOfHint text := text
  parseSqlPlan := parseOrders
  rowExists _ _ _ _ := .ok false
  decodeBase64Text _ := none
  insertsOfSelect _ _ _ := .ok []

def atTime (time : ℕ) : Surroundings where
  now _ := time

def ordersServer (data : TableData) : Server := ⟨ordersEngine data, { defaultDb := some "shop" }⟩

theorem writable_ordersServer (data : TableData) : (ordersServer data).engine.Writable :=
  ⟨fun _ => rfl, fun _ hkey => absurd hkey List.not_mem_nil⟩

/-- An order is inserted in the transaction. -/
theorem rollback_restores_sample : ∃ y z,
    run (Turn.step ordersSql)
      (final (mysqlExecuteSql ordersSql (atTime 5) .startTransaction (ordersServer .empty)))
      [⟨.statement "INSERT INTO orders (id) VALUES (1)", atTime 6⟩] = some y ∧
    mysqlExecuteSql ordersSql (atTime 7) .rollback y = .ok () z ∧
    (ordersServer .empty).engine.Shows ordersSql.ext.text z.engine := by
  refine rollback_restores ordersSql (ordersServer .empty) (atTime 5) (atTime 7) _
    (writable_ordersServer .empty) rfl ⟨⟨rfl, .inr ⟨rfl, _, rfl, ?_⟩⟩, fun _ _ => trivial⟩
  refine ⟨.insert, ordersKey, ["id"], orderRow 1, none, ⟨ordersSchema, .empty⟩, rfl, by decide, rfl,
    ?_, ?_⟩
  · rintro (hnull | ⟨e, hcheck⟩)
    · exact hnull rfl
    · cases hcheck
  · refine ⟨"id", "1", eqExpr "id" (.i64 1), rfl, rfl, ?_, ?_, ?_⟩
    · have hother : undoText ordersKey "id" "1" ≠ "INSERT INTO orders (id) VALUES (1)" := by
        decide +kernel
      change parseOrders (undoText ordersKey "id" "1") none = _
      rw [parseOrders, if_neg hother, if_pos rfl]
    · exact fun shown hshown => absurd hshown List.not_mem_nil
    · decide +kernel

def oneOrder : TableData :=
  TableData.empty.pushRow (litsText [.i64 1]) ⟨orderRow 1, 1, 1, false, 4⟩

/-- All orders are deleted in the transaction: ROLLBACK succeeds, and the order that there was at
BEGIN is gone. -/
theorem rollback_loses_deleted_row : ∃ y z,
    run (Turn.step ordersSql)
      (final (mysqlExecuteSql ordersSql (atTime 5) .startTransaction (ordersServer oneOrder)))
      [⟨.statement "DELETE FROM orders", atTime 6⟩] = some y ∧
    mysqlExecuteSql ordersSql (atTime 7) .rollback y = .ok () z ∧
    ¬(ordersServer oneOrder).engine.Shows ordersSql.ext.text z.engine := by
  refine ⟨_, _, rfl, rfl, fun h => ?_⟩
  obtain ⟨u, hu, -, hvisible⟩ := h ordersKey ⟨ordersSchema, oneOrder⟩ rfl
  cases hu
  have hlength := congrArg List.length hvisible
  revert hlength
  decide +kernel

end Samples

end SkeinDB.Sessions
