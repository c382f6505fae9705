import SkeinDB.Sessions.Rollback
import SkeinDB.Transition.UndoLog

/-!
# Savepoints

`skeindb/src/server.rs`: `pg_dispatch_sql` on the commands of a transaction. A savepoint keeps the
length of the undo list of the session; ROLLBACK TO executes the undo texts behind it. A statement
that fails in a transaction leaves it failed, and only rolling back is then done.
-/
namespace SkeinDB.Sessions
open SkeinDB.Queries SkeinDB.Tables SkeinDB.Transition

structure PgSavepoint where
  name : String
  undoLen : ℕ
  deriving DecidableEq, Repr

inductive TxStatus
  | idle
  | inTransaction
  | failed
  deriving DecidableEq, Repr

structure PgSession where
  server : Server
  savepoints : List PgSavepoint := []
  txStatus : TxStatus := .idle

/-- What a command is answered with: an error with its code, or that of the statement. -/
inductive PgError
  | response (sqlstate message : String)
  | statement (message : String)
  deriving DecidableEq, Repr

/-- A command as `pg_dispatch_sql` tells them apart; everything else is handed on. -/
inductive PgCommand
  | begin
  | commit
  | endTransaction
  | rollback
  | savepoint (name : String)
  | release (name : String)
  | rollbackTo (name : String)
  | execute (command : MySqlCommand)

section Code
variable {X ι : Type} [DecidableEq ι] (sql : MySql X ι) (at_ : Surroundings)

/-- `Iterator::rposition`. -/
def rposition {α : Type} (p : α → Bool) : List α → Option ℕ
  | [] => none
  | a :: as =>
    match rposition p as with
    | some idx => some (idx + 1)
    | none => if p a then some 0 else none

def pgFindSavepointIndex (savepoints : List PgSavepoint) (name : String) : Option ℕ :=
  rposition (fun savepoint => eqIgnoreAsciiCase savepoint.name name) savepoints

def pgTxStatusForSession (session : MySqlSession) (failed : Bool) : TxStatus :=
  if failed then .failed else if session.txActive then .inTransaction else .idle

def missingSavepoint (name : String) : PgError :=
  .response "3B001" ("savepoint '" ++ name ++ "' does not exist")

/-- Run a part of the server under the session. -/
def onServer {α : Type} (m : EStateM String Server α) : EStateM PgError PgSession α := fun x =>
  match m x.server with
  | .ok a server => .ok a { x with server }
  | .error e server => .error (.statement e) { x with server }

/-- The status that an error leaves. -/
def onError {α : Type} (m : EStateM PgError PgSession α) (status : PgSession → TxStatus) :
    EStateM PgError PgSession α := fun x =>
  match m x with
  | .ok a x => .ok a x
  | .error e x => .error e { x with txStatus := status x }

def withStatus (status : TxStatus) (x : PgSession) : PgSession := { x with txStatus := status }

def PgSession.ended (x : PgSession) : PgSession :=
  { x with server := x.server.ended, savepoints := [] }

def pgRollbackFullTransaction : EStateM PgError PgSession Unit := do
  let x ← get
  if x.server.session.txUndoSql ≠ [] then
    onServer (onEngine (mysqlRollbackTransaction sql at_ x.server.session.txUndoSql))
  modify PgSession.ended

def pgReleaseSavepoint (name : String) : EStateM PgError PgSession Unit := do
  let x ← get
  match pgFindSavepointIndex x.savepoints name with
  | none => throw (missingSavepoint name)
  | some index => set { x with savepoints := x.savepoints.take index }

def Server.cutUndo (undoLen : ℕ) (x : Server) : Server :=
  { x with session := { x.session with txUndoSql := x.session.txUndoSql.take undoLen } }

def pgRollbackToSavepoint (name : String) : EStateM PgError PgSession Unit := do
  let x ← get
  match pgFindSavepointIndex x.savepoints name with
  | none => throw (missingSavepoint name)
  | some index =>
    let undoLen := ((x.savepoints[index]?).map PgSavepoint.undoLen).getD 0
    if undoLen < x.server.session.txUndoSql.length then do
      onServer (onEngine
        (mysqlRollbackTransaction sql at_ (x.server.session.txUndoSql.drop undoLen)))
      modify fun x => { x with server := x.server.cutUndo undoLen }
    modify fun x => { x with savepoints := x.savepoints.take (index + 1) }

def needsTransaction (command : String) : PgError :=
  .response "25P01" (command ++ " can only be used in transaction blocks")

/-- The tag of the answer; that of a statement is left to it. -/
def pgDispatchFailed : PgCommand → EStateM PgError PgSession (Option String)
  | .commit | .rollback => do
    pgRollbackFullTransaction sql at_
    modify (withStatus .idle)
    return some "ROLLBACK"
  | .rollbackTo name => do
    pgRollbackToSavepoint sql at_ name
    modify (withStatus .inTransaction)
    return some "ROLLBACK"
  | _ => throw (.response "25P02"
      "current transaction is aborted, commands ignored until end of transaction block")

/-- The commands of a session whose transaction has not failed. -/
def pgDispatchOpen (x : PgSession) : PgCommand → EStateM PgError PgSession (Option String)
  | .begin => do
    if x.txStatus = .idle then
      modify fun x => { x with
        server := { x.server with
          session := { x.server.session with txActive := true, txUndoSql := [] } }
        savepoints := [] }
    modify (withStatus .inTransaction)
    return some "BEGIN"
  | .commit | .endTransaction => do
    modify fun x => withStatus .idle x.ended
    return some "COMMIT"
  | .rollback => do
    onError (pgRollbackFullTransaction sql at_) fun x =>
      pgTxStatusForSession x.server.session false
    modify (withStatus .idle)
    return some "ROLLBACK"
  | .savepoint name =>
    if x.txStatus ≠ .inTransaction then throw (needsTransaction "SAVEPOINT")
    else do
      modify fun x => { x with
        savepoints := x.savepoints ++ [⟨name, x.server.session.txUndoSql.length⟩] }
      return some "SAVEPOINT"
  | .release name =>
    if x.txStatus ≠ .inTransaction then throw (needsTransaction "RELEASE SAVEPOINT")
    else do
      pgReleaseSavepoint name
      return some "RELEASE"
  | .rollbackTo name =>
    if x.txStatus ≠ .inTransaction then throw (needsTransaction "ROLLBACK TO SAVEPOINT")
    else do
      pgRollbackToSavepoint sql at_ name
      modify (withStatus .inTransaction)
      return some "ROLLBACK"
  | .execute command => do
    onError (onServer (mysqlExecuteSql sql at_ command)) fun x =>
      pgTxStatusForSession x.server.session x.server.session.txActive
    modify fun x => { x with txStatus := pgTxStatusForSession x.server.session false }
    return none

def pgDispatchSql (command : PgCommand) : EStateM PgError PgSession (Option String) := do
  let x ← get
  if x.txStatus = .failed then pgDispatchFailed sql at_ command
  else pgDispatchOpen sql at_ x command

end Code

section Undo
variable {X ι : Type} [DecidableEq ι] {sql : MySql X ι} {at_ : Surroundings} {s₁ s₂ s₃ : Engine}
  {undoSql more : List String}

theorem Restores.append (h : Restores sql s₁ undoSql s₂) (hmore : Restores sql s₂ more s₃) :
    Restores sql s₁ (undoSql ++ more) s₃ := by
  intro at_ s hquiet hs hshows
  obtain ⟨s', hrun, hs', hback⟩ := hmore at_ s hquiet hs hshows
  obtain ⟨s'', hrest, hs'', hall⟩ := h at_ s' hquiet hs' hback
  refine ⟨s'', ?_, hs'', hall⟩
  unfold mysqlRollbackTransaction at hrun hrest ⊢
  rw [List.reverse_append, List.foldlM_append]
  exact (bind_of_ok hrun).trans hrest

theorem undoLaws (sql : MySql X ι) : UndoLaws (Restores sql) where
  nil := restores_nil
  append := Restores.append

end Undo

section Naturality
variable {ε σ α β : Type} {f : σ → σ}

/-- An update that does not look at what `f` changes. -/
def Commutes (f : σ → σ) (m : EStateM ε σ α) : Prop := ∀ x,
  m (f x) = match m x with
    | .ok a y => .ok a (f y)
    | .error e y => .error e (f y)

theorem Commutes.bind {m : EStateM ε σ α} {g : α → EStateM ε σ β} (hm : Commutes f m)
    (hg : ∀ a, Commutes f (g a)) : Commutes f (m >>= g) := by
  intro x
  have hstep := hm x
  rcases hrun : m x with ⟨a, y⟩ | ⟨e, y⟩
  · rw [hrun] at hstep
    rw [bind_of_ok hrun, bind_of_ok hstep]
    exact hg a y
  · rw [hrun] at hstep
    rw [bind_of_error hrun, bind_of_error hstep]

theorem Commutes.foldlM {step : β → α → EStateM ε σ β} {items : List α}
    (h : ∀ b a, Commutes f (step b a)) (b : β) : Commutes f (items.foldlM step b) := by
  induction items generalizing b with
  | nil => exact fun _ => rfl
  | cons a items ih =>
    rw [List.foldlM_cons]
    exact (h b a).bind ih

theorem Commutes.final {m : EStateM ε σ α} (h : Commutes f m) (x : σ) :
    final (m (f x)) = f (final (m x)) := by
  rw [h x]
  rcases m x with ⟨a, y⟩ | ⟨e, y⟩
  · rfl
  · rfl

end Naturality

section Growth
variable {X ι : Type} [DecidableEq ι] (sql : MySql X ι) (at_ : Surroundings)

def Server.withUndo (undoSql : List String) (x : Server) : Server :=
  { x with session := { x.session with txUndoSql := undoSql } }

theorem commutes_onEngine {α : Type} (undoSql : List String) (m : EStateM String Engine α) :
    Commutes (Server.withUndo undoSql) (onEngine m) := by
  intro x
  unfold onEngine zoom
  rcases hrun : m x.engine with ⟨a, s⟩ | ⟨e, s⟩
  · simp [Server.withUndo, hrun]
  · simp [Server.withUndo, hrun]

theorem commutes_executeUntracked (undoSql : List String) (text : String)
    (defaultDb : Option String) :
    Commutes (Server.withUndo undoSql) (executeUntracked sql at_ text defaultDb) :=
  (commutes_onEngine undoSql _).bind fun _ _ => rfl

omit [DecidableEq ι] in
theorem record_withUndo (x : Server) (text : String) (result : SqlResult) : ∃ more, ∀ undoSql,
    Server.record sql text result (x.withUndo undoSql) =
      (Server.record sql text result x).withUndo (undoSql ++ more) := by
  by_cases h : result.statement ∈ ["insert", "update", "delete"] ∧
      (!x.session.autocommit || x.session.txActive) = true
  · have hrecord : ∀ session : MySqlSession,
        (!session.autocommit || session.txActive) = true →
        session.record sql x.engine text result = { session with
          txActive := true
          txUndoSql := session.txUndoSql ++ if result.statement = "insert" then
            (mysqlBuildInsertUndoSql sql x.engine text session.defaultDb result.write).toList
              else [] } := fun session hsession => if_pos ⟨h.1, hsession⟩
    refine ⟨if result.statement = "insert" then
      (mysqlBuildInsertUndoSql sql x.engine text x.session.defaultDb result.write).toList
        else [], fun undoSql => ?_⟩
    simp only [Server.record, Server.withUndo, hrecord, h.2]
  · have hrecord : ∀ session : MySqlSession,
        (!session.autocommit || session.txActive) = (!x.session.autocommit || x.session.txActive) →
        session.record sql x.engine text result = session := fun session hsession =>
      if_neg fun hboth => h ⟨hboth.1, hsession ▸ hboth.2⟩
    refine ⟨[], fun undoSql => ?_⟩
    simp only [Server.record, Server.withUndo, hrecord, List.append_nil]

variable {sql at_}

/-- What a statement adds to the undo list does not depend on the list. -/
theorem execute_withUndo {command : MySqlCommand} {x : Server}
    (hclean : Turn.Clean sql x ⟨command, at_⟩) :
    ∃ more, ∀ undoSql, final (mysqlExecuteSql sql at_ command (x.withUndo undoSql)) =
      (final (mysqlExecuteSql sql at_ command x)).withUndo (undoSql ++ more) := by
  cases command with
  | setAutocommit enabled => exact hclean.2.elim
  | startTransaction => exact hclean.2.elim
  | commit => exact hclean.2.elim
  | rollback => exact hclean.2.elim
  | truncate table =>
    refine ⟨[], fun undoSql => ?_⟩
    rw [List.append_nil]
    exact (commutes_executeUntracked sql at_ undoSql _ _).final x
  | insertSelect text =>
    refine ⟨[], fun undoSql => ?_⟩
    rw [List.append_nil]
    rcases htexts : sql.insertsOfSelect text x.session.defaultDb x.engine with e | texts
    · have hrun : ∀ y : Server, y.session.defaultDb = x.session.defaultDb → y.engine = x.engine →
          mysqlExecuteSql sql at_ (.insertSelect text) y = .error e y := by
        intro y hdb hengine
        refine (bind_of_ok (m := get) (a := y) (t := y) rfl).trans ?_
        rw [hdb, hengine, htexts]
        rfl
      rw [hrun x rfl rfl, hrun (x.withUndo undoSql) rfl rfl]
      rfl
    · have hrun : ∀ y : Server, y.session.defaultDb = x.session.defaultDb → y.engine = x.engine →
          mysqlExecuteSql sql at_ (.insertSelect text) y = texts.foldlM
            (fun _ text => executeUntracked sql at_ text x.session.defaultDb) () y := by
        intro y hdb hengine
        refine (bind_of_ok (m := get) (a := y) (t := y) rfl).trans ?_
        rw [hdb, hengine, htexts]
      rw [hrun x rfl rfl, hrun (x.withUndo undoSql) rfl rfl]
      exact (Commutes.foldlM
        (fun _ text => commutes_executeUntracked sql at_ undoSql text _) ()).final x
  | statement text =>
    have hread : ∀ y : Server, y.session.defaultDb = x.session.defaultDb → y.engine = x.engine →
        mysqlExecuteSql sql at_ (.statement text) y = (do
          let result ← onEngine (sqlExec sql.toSql at_ text x.session.defaultDb)
          modify (Server.record sql text result)) y := by
      intro y hdb hengine
      refine (bind_of_ok (m := get) (a := y) (t := y) rfl).trans ?_
      rw [hdb]
    rw [hread x rfl rfl]
    have hread' := fun undoSql => hread (x.withUndo undoSql) rfl rfl
    have hcommutes := fun undoSql => commutes_onEngine undoSql
      (sqlExec sql.toSql at_ text x.session.defaultDb) x
    rcases hrun : onEngine (sqlExec sql.toSql at_ text x.session.defaultDb) x with ⟨r, y⟩ | ⟨e, y⟩
    · obtain ⟨more, hmore⟩ := record_withUndo sql y text r
      refine ⟨more, fun undoSql => ?_⟩
      have hundo := hcommutes undoSql
      rw [hrun] at hundo
      rw [hread', bind_of_ok hrun, bind_of_ok hundo]
      exact hmore undoSql
    · refine ⟨[], fun undoSql => ?_⟩
      have hundo := hcommutes undoSql
      rw [hrun] at hundo
      rw [hread', bind_of_error hrun, bind_of_error hundo, List.append_nil]
      rfl

/-- A clean statement brings the undo list and the state on together. -/
theorem execute_grows {command : MySqlCommand} {x : Server}
    (hclean : Turn.Clean sql x ⟨command, at_⟩) (hactive : x.session.txActive = true)
    (hwritable : x.engine.Writable) : ∃ more,
      (final (mysqlExecuteSql sql at_ command x)).session.txUndoSql =
        x.session.txUndoSql ++ more ∧
      ∀ s steps, Restores sql s steps x.engine →
        Restores sql s (steps ++ more) (final (mysqlExecuteSql sql at_ command x)).engine := by
  obtain ⟨more, hmore⟩ := execute_withUndo hclean
  refine ⟨more, congrArg (fun y => y.session.txUndoSql) (hmore x.session.txUndoSql), ?_⟩
  intro s steps hrestores
  have hstart : InTransaction sql s (x.withUndo steps) := ⟨hactive, hwritable, hrestores⟩
  have hclean' : Turn.Clean sql (x.withUndo steps) ⟨command, at_⟩ := hclean
  have hend := keeps_inTransaction sql s _ _ _ hstart hclean' rfl
  rw [hmore steps] at hend
  exact hend.restores

end Growth

section Tracking
variable {X ι : Type} [DecidableEq ι] (sql : MySql X ι)

structure PgTurn where
  command : PgCommand
  at_ : Surroundings

/-- A session with the states in which its savepoints were set. -/
structure Tracked where
  session : PgSession
  marks : List Engine

def Tracked.step (t : Tracked) (turn : PgTurn) : Option Tracked :=
  let session := final (pgDispatchSql sql turn.at_ turn.command t.session)
  let marks := match turn.command with
    | .savepoint _ => t.marks ++ [t.session.server.engine]
    | _ => t.marks
  some ⟨session, marks.take session.savepoints.length⟩

/-- A turn that does not end the transaction, and whose statement, if it is one, can be undone. -/
def PgTurn.Clean (t : Tracked) (turn : PgTurn) : Prop :=
  turn.at_.io = {} ∧
  match turn.command with
  | .begin | .savepoint _ | .release _ | .rollbackTo _ => True
  | .execute command => Turn.Clean sql t.session.server ⟨command, turn.at_⟩
  | .commit | .endTransaction | .rollback => False

def PgSession.undo (x : PgSession) : List String := x.server.session.txUndoSql

def undoMarks (savepoints : List PgSavepoint) (marks : List Engine) : List (ℕ × Engine) :=
  (savepoints.map PgSavepoint.undoLen).zip marks

/-- A transaction in which the undo list brings back each savepoint and the beginning. -/
structure Nested (s₀ : Engine) (t : Tracked) : Prop where
  active : t.session.server.session.txActive = true
  status : t.session.txStatus ≠ .idle
  writable : t.session.server.engine.Writable
  length : t.marks.length = t.session.savepoints.length
  marked : Marked (Restores sql) t.session.undo t.session.server.engine s₀ 0
    (undoMarks t.session.savepoints t.marks)

end Tracking

section Steps
variable {X ι : Type} [DecidableEq ι] {sql : MySql X ι} {at_ : Surroundings} {s₀ : Engine}
  {t : Tracked} {x y : PgSession} {name : String} {index : ℕ}

theorem rposition_spec {α : Type} {p : α → Bool} {as : List α} {idx : ℕ}
    (h : rposition p as = some idx) : ∃ a, as[idx]? = some a ∧ p a = true := by
  induction as generalizing idx with
  | nil => simp [rposition] at h
  | cons a as ih =>
    rw [rposition] at h
    rcases hrest : rposition p as with _ | idx'
    · rw [hrest] at h
      by_cases ha : p a = true
      · simp only [ha, if_true, Option.some.injEq] at h
        exact ⟨a, by simp [← h], ha⟩
      · simp [ha] at h
    · rw [hrest] at h
      simp only [Option.some.injEq] at h
      subst h
      simpa using ih hrest

/-- The savepoint that is found under a name, with the state in which it was set. -/
theorem Nested.found (h : Nested sql s₀ t)
    (hfind : pgFindSavepointIndex t.session.savepoints name = some index) :
    ∃ savepoint mark, t.session.savepoints[index]? = some savepoint ∧
      t.marks[index]? = some mark ∧
      (undoMarks t.session.savepoints t.marks)[index]? = some (savepoint.undoLen, mark) := by
  obtain ⟨savepoint, hsavepoint, -⟩ := rposition_spec hfind
  have hlt : index < t.marks.length := by
    rw [h.length]
    exact (List.getElem?_eq_some_iff.mp hsavepoint).1
  refine ⟨savepoint, t.marks[index], hsavepoint, List.getElem?_eq_getElem hlt, ?_⟩
  simp [undoMarks, List.getElem?_zip_eq_some, hsavepoint, hlt]

theorem undoMarks_take (savepoints : List PgSavepoint) (marks : List Engine) (n : ℕ) :
    undoMarks (savepoints.take n) (marks.take n) = (undoMarks savepoints marks).take n := by
  simp [undoMarks, List.map_take, List.zip_eq_zipWith, List.take_zipWith]

theorem onServer_ok {α : Type} {m : EStateM String Server α} {a : α} {server : Server}
    (h : m x.server = .ok a server) : onServer m x = .ok a { x with server } := by
  unfold onServer
  rw [h]

theorem onServer_error {α : Type} {m : EStateM String Server α} {e : String} {server : Server}
    (h : m x.server = .error e server) :
    onServer m x = .error (.statement e) { x with server } := by
  unfold onServer
  rw [h]

/-- What rolling back to a savepoint does. -/
structure RolledBack (t : Tracked) (index : ℕ) (text : LitsText) (mark : Engine) (y : PgSession) :
    Prop where
  active : y.server.session.txActive = true
  status : y.txStatus = t.session.txStatus
  writable : y.server.engine.Writable
  savepoints : y.savepoints = t.session.savepoints.take (index + 1)
  undo : ∃ savepoint, t.session.savepoints[index]? = some savepoint ∧
    y.undo = t.session.undo.take savepoint.undoLen
  shows : mark.Shows text y.server.engine

theorem Nested.rollbackTo (h : Nested sql s₀ t) (hquiet : at_.io = {})
    (hfind : pgFindSavepointIndex t.session.savepoints name = some index) : ∃ mark y,
      t.marks[index]? = some mark ∧ pgRollbackToSavepoint sql at_ name t.session = .ok () y ∧
      RolledBack t index sql.ext.text mark y := by
  obtain ⟨savepoint, mark, hsavepoint, hmark, hentry⟩ := h.found hfind
  obtain ⟨s, hrun, hs, hshows⟩ := h.marked.restores_mark (undoLaws sql) hentry at_
    t.session.server.engine hquiet h.writable (.refl _)
  refine ⟨mark, { t.session with
    server := Server.cutUndo savepoint.undoLen { t.session.server with engine := s }
    savepoints := t.session.savepoints.take (index + 1) }, hmark, ?_, ?_⟩
  · refine (bind_of_ok (m := get) (a := t.session) (t := t.session) rfl).trans ?_
    rw [hfind]
    dsimp only
    rw [hsavepoint]
    dsimp only [Option.map_some, Option.getD_some]
    by_cases hlen : savepoint.undoLen < t.session.server.session.txUndoSql.length
    · rw [if_pos hlen]
      exact (bind_of_ok (onServer_ok (onEngine_ok hrun))).trans rfl
    · rw [if_neg hlen]
      have hdrop : t.session.undo.drop savepoint.undoLen = [] :=
        List.drop_eq_nil_of_le (not_lt.mp hlen)
      have htake : t.session.undo.take savepoint.undoLen = t.session.undo :=
        List.take_of_length_le (not_lt.mp hlen)
      rw [hdrop] at hrun
      cases hrun
      have hserver : Server.cutUndo savepoint.undoLen t.session.server = t.session.server := by
        unfold Server.cutUndo
        exact congrArg (fun undoSql => t.session.server.withUndo undoSql) htake
      change EStateM.Result.ok () { t.session with
        savepoints := t.session.savepoints.take (index + 1) } = _
      rw [show Server.cutUndo savepoint.undoLen { t.session.server with
        engine := t.session.server.engine } = t.session.server from hserver]
  · exact ⟨h.active, rfl, hs, rfl, ⟨savepoint, hsavepoint, rfl⟩, hshows⟩

theorem Nested.of_rolledBack (h : Nested sql s₀ t) {mark : Engine}
    (hmark : t.marks[index]? = some mark) (hback : RolledBack t index sql.ext.text mark y)
    {status : TxStatus} (hstatus : status ≠ .idle) :
    Nested sql s₀ ⟨withStatus status y, t.marks.take (withStatus status y).savepoints.length⟩ := by
  obtain ⟨savepoint, hsavepoint, hundo⟩ := hback.undo
  have hentry : (undoMarks t.session.savepoints t.marks)[index]? =
      some (savepoint.undoLen, mark) := by
    simp [undoMarks, List.getElem?_zip_eq_some, hsavepoint, hmark]
  have hlt : index < t.marks.length := (List.getElem?_eq_some_iff.mp hmark).1
  have hcount : y.savepoints.length = index + 1 := by
    rw [hback.savepoints, List.length_take, ← h.length]
    omega
  refine ⟨hback.active, hstatus, hback.writable, ?_, ?_⟩
  · change (t.marks.take y.savepoints.length).length = y.savepoints.length
    rw [hcount, List.length_take]
    omega
  · change Marked (Restores sql) y.undo y.server.engine s₀ 0
      (undoMarks y.savepoints (t.marks.take y.savepoints.length))
    rw [hcount, hback.savepoints, undoMarks_take, hundo]
    have hmarked := h.marked.rollback (undoLaws sql) hentry
    exact hmarked.mono fun s steps hsteps => hsteps.mono hback.shows

/-- A session that is answered with an error as it was. -/
theorem Nested.unchanged (h : Nested sql s₀ t) {marks : List Engine} (hmarks : marks = t.marks) :
    Nested sql s₀ ⟨t.session, marks.take t.session.savepoints.length⟩ := by
  rwa [hmarks, ← h.length, List.take_length]

theorem Nested.reStatus (h : Nested sql s₀ t) {status : TxStatus} (hstatus : status ≠ .idle) :
    Nested sql s₀ ⟨withStatus status t.session, t.marks⟩ :=
  ⟨h.active, hstatus, h.writable, h.length, h.marked⟩

theorem Nested.savepoint (h : Nested sql s₀ t) (name : String) :
    Nested sql s₀ ⟨{ t.session with savepoints :=
        t.session.savepoints ++ [⟨name, t.session.undo.length⟩] },
      t.marks ++ [t.session.server.engine]⟩ := by
  refine ⟨h.active, h.status, h.writable, by simp [h.length], ?_⟩
  change Marked (Restores sql) t.session.undo t.session.server.engine s₀ 0 _
  rw [undoMarks, List.map_append, List.zip_append (by simp [h.length])]
  exact h.marked.push (undoLaws sql)

theorem Nested.release (h : Nested sql s₀ t) (index : ℕ) :
    Nested sql s₀ ⟨{ t.session with savepoints := t.session.savepoints.take index },
      t.marks.take index⟩ := by
  refine ⟨h.active, h.status, h.writable, by simp [h.length], ?_⟩
  change Marked (Restores sql) t.session.undo t.session.server.engine s₀ 0 _
  rw [undoMarks_take]
  exact h.marked.release (undoLaws sql) index

/-- A clean statement, executed or refused. -/
theorem Nested.execute (h : Nested sql s₀ t) {command : MySqlCommand}
    (hclean : Turn.Clean sql t.session.server ⟨command, at_⟩) {status : TxStatus}
    (hstatus : status ≠ .idle) :
    Nested sql s₀ ⟨{ t.session with
      server := final (mysqlExecuteSql sql at_ command t.session.server)
      txStatus := status }, t.marks⟩ := by
  obtain ⟨more, hundo, hgrow⟩ := execute_grows hclean h.active h.writable
  have hnext := keeps_inTransaction sql s₀ _ _ _
    ⟨h.active, h.writable, h.marked.restores_base (undoLaws sql)⟩ hclean rfl
  refine ⟨hnext.active, hstatus, hnext.writable, h.length, ?_⟩
  have hmarked := h.marked.grow hgrow
  rw [PgSession.undo, ← hundo] at hmarked
  exact hmarked

end Steps

section Runs
variable {X ι : Type} [DecidableEq ι] {sql : MySql X ι} {at_ : Surroundings} {s₀ : Engine}
  {t : Tracked} {name : String} {index : ℕ}

/-- ROLLBACK TO, which goes on in a transaction. -/
def rollbackToAnswer (sql : MySql X ι) (at_ : Surroundings) (name : String) :
    EStateM PgError PgSession (Option String) := do
  pgRollbackToSavepoint sql at_ name
  modify (withStatus .inTransaction)
  return some "ROLLBACK"

theorem Nested.rollbackToAnswer_ok (h : Nested sql s₀ t) (hquiet : at_.io = {})
    (hfind : pgFindSavepointIndex t.session.savepoints name = some index) : ∃ mark y,
      t.marks[index]? = some mark ∧
      rollbackToAnswer sql at_ name t.session =
        .ok (some "ROLLBACK") (withStatus .inTransaction y) ∧
      RolledBack t index sql.ext.text mark y := by
  obtain ⟨mark, y, hmark, hrun, hback⟩ := h.rollbackTo hquiet hfind
  exact ⟨mark, y, hmark, (bind_of_ok hrun).trans rfl, hback⟩

theorem rollbackToAnswer_missing {x : PgSession}
    (hfind : pgFindSavepointIndex x.savepoints name = none) :
    rollbackToAnswer sql at_ name x = .error (missingSavepoint name) x := by
  apply bind_of_error
  refine (bind_of_ok (m := get) (a := x) (t := x) rfl).trans ?_
  rw [hfind]
  rfl

theorem Nested.keep_rollbackTo (h : Nested sql s₀ t) (hquiet : at_.io = {}) (name : String) :
    Nested sql s₀ ⟨final (rollbackToAnswer sql at_ name t.session), t.marks.take
      (final (rollbackToAnswer sql at_ name t.session)).savepoints.length⟩ := by
  rcases hfind : pgFindSavepointIndex t.session.savepoints name with _ | index
  · rw [rollbackToAnswer_missing hfind]
    exact h.unchanged rfl
  · obtain ⟨mark, y, hmark, hrun, hback⟩ := h.rollbackToAnswer_ok hquiet hfind
    rw [hrun]
    exact h.of_rolledBack hmark hback (by decide)

theorem dispatch_failed {x : PgSession} (hfailed : x.txStatus = .failed) (command : PgCommand) :
    pgDispatchSql sql at_ command x = pgDispatchFailed sql at_ command x := by
  refine (bind_of_ok (m := get) (a := x) (t := x) rfl).trans ?_
  rw [if_pos hfailed]

theorem dispatch_open {x : PgSession} (hfailed : x.txStatus ≠ .failed) (command : PgCommand) :
    pgDispatchSql sql at_ command x = pgDispatchOpen sql at_ x command x := by
  refine (bind_of_ok (m := get) (a := x) (t := x) rfl).trans ?_
  rw [if_neg hfailed]

theorem Nested.keep_failed (h : Nested sql s₀ t) {command : PgCommand}
    (hclean : PgTurn.Clean sql t ⟨command, at_⟩) {t' : Tracked}
    (hfailed : t.session.txStatus = .failed)
    (hstep : Tracked.step sql t ⟨command, at_⟩ = some t') : Nested sql s₀ t' := by
  rw [Tracked.step, dispatch_failed hfailed] at hstep
  cases hstep
  cases command with
  | begin => exact h.unchanged rfl
  | commit => exact hclean.2.elim
  | endTransaction => exact hclean.2.elim
  | rollback => exact hclean.2.elim
  | savepoint name =>
    change Nested sql s₀ ⟨t.session, (t.marks ++ [_]).take t.session.savepoints.length⟩
    rw [List.take_append_of_le_length h.length.ge]
    exact h.unchanged rfl
  | release name => exact h.unchanged rfl
  | rollbackTo name => exact h.keep_rollbackTo hclean.1 name
  | execute command => exact h.unchanged rfl

theorem Nested.keep_execute (h : Nested sql s₀ t) {command : MySqlCommand}
    (hclean : Turn.Clean sql t.session.server ⟨command, at_⟩) :
    Nested sql s₀ ⟨final (pgDispatchOpen sql at_ t.session (.execute command) t.session),
      t.marks.take (final (pgDispatchOpen sql at_ t.session (.execute command)
        t.session)).savepoints.length⟩ := by
  have hnext : ∀ {status : TxStatus}, status ≠ .idle → Nested sql s₀ ⟨{ t.session with
      server := final (mysqlExecuteSql sql at_ command t.session.server)
      txStatus := status }, t.marks⟩ := fun hstatus => h.execute hclean hstatus
  have hactive : (final (mysqlExecuteSql sql at_ command t.session.server)).session.txActive =
      true := (hnext (show TxStatus.failed ≠ .idle by decide)).active
  rcases hrun : mysqlExecuteSql sql at_ command t.session.server with ⟨_, server⟩ | ⟨e, server⟩
  · rw [hrun] at hnext hactive
    rw [final] at hactive
    have hpart : onError (onServer (mysqlExecuteSql sql at_ command)) (fun x =>
        pgTxStatusForSession x.server.session x.server.session.txActive) t.session =
          .ok () { t.session with server } := by
      rw [onError, onServer_ok hrun]
    have hall : pgDispatchOpen sql at_ t.session (.execute command) t.session =
        .ok none { t.session with server, txStatus := .inTransaction } := by
      refine (bind_of_ok hpart).trans ?_
      have hstatus : pgTxStatusForSession server.session false = .inTransaction := by
        rw [pgTxStatusForSession, if_neg (by decide), if_pos hactive]
      rw [← hstatus]
      rfl
    rw [hall]
    exact (hnext (by decide)).unchanged rfl
  · rw [hrun] at hnext hactive
    rw [final] at hactive
    have hpart : onError (onServer (mysqlExecuteSql sql at_ command)) (fun x =>
        pgTxStatusForSession x.server.session x.server.session.txActive) t.session =
          .error (.statement e) { t.session with server, txStatus := .failed } := by
      have hstatus : pgTxStatusForSession server.session server.session.txActive = .failed := by
        rw [pgTxStatusForSession, if_pos hactive]
      rw [onError, onServer_error hrun, ← hstatus]
    have hall : pgDispatchOpen sql at_ t.session (.execute command) t.session =
        .error (.statement e) { t.session with server, txStatus := .failed } :=
      bind_of_error hpart
    rw [hall]
    exact (hnext (by decide)).unchanged rfl

/-- The turns of a transaction keep its savepoints. -/
theorem keeps_nested (sql : MySql X ι) (s₀ : Engine) :
    Keeps (Tracked.step sql) (PgTurn.Clean sql) (Nested sql s₀) := by
  rintro t ⟨command, at_⟩ t' h hclean hstep
  by_cases hfailed : t.session.txStatus = .failed
  · exact h.keep_failed hclean hfailed hstep
  have hactive : t.session.txStatus = .inTransaction := by
    have hidle := h.status
    revert hfailed hidle
    cases t.session.txStatus <;> simp
  rw [Tracked.step, dispatch_open hfailed] at hstep
  cases hstep
  cases command with
  | begin =>
    have hrun : pgDispatchOpen sql at_ t.session .begin t.session =
        .ok (some "BEGIN") (withStatus .inTransaction t.session) := by
      dsimp only [pgDispatchOpen]
      rw [if_neg h.status]
      rfl
    rw [hrun]
    exact (h.reStatus (show TxStatus.inTransaction ≠ .idle by decide)).unchanged rfl
  | commit => exact hclean.2.elim
  | endTransaction => exact hclean.2.elim
  | rollback => exact hclean.2.elim
  | savepoint name =>
    have hrun : pgDispatchOpen sql at_ t.session (.savepoint name) t.session =
        .ok (some "SAVEPOINT") { t.session with savepoints :=
          t.session.savepoints ++ [⟨name, t.session.undo.length⟩] } := by
      dsimp only [pgDispatchOpen]
      rw [if_neg (by simp [hactive])]
      rfl
    rw [hrun]
    exact (h.savepoint name).unchanged rfl
  | release name =>
    rcases hfind : pgFindSavepointIndex t.session.savepoints name with _ | index
    · have hrun : pgDispatchOpen sql at_ t.session (.release name) t.session =
          .error (missingSavepoint name) t.session := by
        dsimp only [pgDispatchOpen]
        rw [if_neg (by simp [hactive])]
        apply bind_of_error
        refine (bind_of_ok (m := get) (a := t.session) (t := t.session) rfl).trans ?_
        rw [hfind]
        rfl
      rw [hrun]
      exact h.unchanged rfl
    · have hrun : pgDispatchOpen sql at_ t.session (.release name) t.session =
          .ok (some "RELEASE") { t.session with
            savepoints := t.session.savepoints.take index } := by
        dsimp only [pgDispatchOpen]
        rw [if_neg (by simp [hactive])]
        refine (bind_of_ok (a := ()) ?_).trans rfl
        refine (bind_of_ok (m := get) (a := t.session) (t := t.session) rfl).trans ?_
        rw [hfind]
        rfl
      rw [hrun]
      have hreleased := (h.release index).unchanged rfl
      rwa [List.take_take, min_eq_left (by simp)] at hreleased
  | rollbackTo name =>
    have hrun : pgDispatchOpen sql at_ t.session (.rollbackTo name) t.session =
        rollbackToAnswer sql at_ name t.session := by
      dsimp only [pgDispatchOpen]
      rw [if_neg (by simp [hactive])]
      rfl
    rw [hrun]
    exact h.keep_rollbackTo hclean.1 name
  | execute command => exact h.keep_execute hclean.2

theorem begin_nested {x : PgSession} (hidle : x.txStatus = .idle)
    (hwritable : x.server.engine.Writable) :
    Nested sql x.server.engine ⟨final (pgDispatchSql sql at_ .begin x), []⟩ := by
  have hrun : pgDispatchSql sql at_ .begin x = .ok (some "BEGIN") { x with
      server := { x.server with
        session := { x.server.session with txActive := true, txUndoSql := [] } }
      savepoints := []
      txStatus := .inTransaction } := by
    rw [dispatch_open (by simp [hidle])]
    dsimp only [pgDispatchOpen]
    rw [if_pos hidle]
    rfl
  rw [hrun]
  refine ⟨rfl, by simp, hwritable, rfl, le_rfl, ?_⟩
  exact restores_nil _

theorem rollback_full (h : Nested sql s₀ t) (hquiet : at_.io = {}) : ∃ y,
    pgRollbackFullTransaction sql at_ t.session = .ok () y ∧
      s₀.Shows sql.ext.text y.server.engine := by
  obtain ⟨s, hrun, -, hshows⟩ := h.marked.restores_base (undoLaws sql) at_
    t.session.server.engine hquiet h.writable (.refl _)
  rw [List.drop_zero] at hrun
  have hread : pgRollbackFullTransaction sql at_ t.session = _ :=
    bind_of_ok (m := get) (a := t.session) (t := t.session) rfl
  rw [hread]
  dsimp only
  split_ifs with hundo
  · exact ⟨_, (bind_of_ok (onServer_ok (onEngine_ok hrun))).trans rfl, hshows⟩
  · rw [not_not] at hundo
    rw [show t.session.undo = [] from hundo] at hrun
    cases hrun
    exact ⟨_, rfl, hshows⟩

theorem dispatch_rollback (h : Nested sql s₀ t) (hquiet : at_.io = {}) : ∃ y,
    pgDispatchSql sql at_ .rollback t.session = .ok (some "ROLLBACK") y ∧ y.txStatus = .idle ∧
      s₀.Shows sql.ext.text y.server.engine := by
  obtain ⟨y, hrun, hshows⟩ := rollback_full h hquiet
  refine ⟨withStatus .idle y, ?_, rfl, hshows⟩
  by_cases hfailed : t.session.txStatus = .failed
  · rw [dispatch_failed hfailed]
    exact (bind_of_ok hrun).trans rfl
  · rw [dispatch_open hfailed]
    refine (bind_of_ok (a := ()) (t := y) ?_).trans rfl
    rw [onError, hrun]

theorem dispatch_rollbackTo (h : Nested sql s₀ t) (hquiet : at_.io = {})
    (hfind : pgFindSavepointIndex t.session.savepoints name = some index) : ∃ mark y,
      t.marks[index]? = some mark ∧
      pgDispatchSql sql at_ (.rollbackTo name) t.session = .ok (some "ROLLBACK") y ∧
      y.txStatus = .inTransaction ∧ y.savepoints = t.session.savepoints.take (index + 1) ∧
      mark.Shows sql.ext.text y.server.engine := by
  obtain ⟨mark, y, hmark, hrun, hback⟩ := h.rollbackToAnswer_ok hquiet hfind
  refine ⟨mark, withStatus .inTransaction y, hmark, ?_, rfl, hback.savepoints, hback.shows⟩
  by_cases hfailed : t.session.txStatus = .failed
  · rw [dispatch_failed hfailed]
    exact hrun
  · have hactive : t.session.txStatus = .inTransaction := by
      have hidle := h.status
      revert hfailed hidle
      cases t.session.txStatus <;> simp
    rw [dispatch_open hfailed]
    dsimp only [pgDispatchOpen]
    rw [if_neg (by simp [hactive])]
    exact hrun

/-- On a disk that takes what is written, in every state of a transaction whose statements can be
undone, whether one of them failed or not: ROLLBACK brings back what the tables showed at BEGIN, and
ROLLBACK TO a savepoint what they showed when the last savepoint of that name was set. -/
theorem savepoints_restore (sql : MySql X ι) (x : PgSession) (atBegin : Surroundings)
    (turns : List PgTurn) (hidle : x.txStatus = .idle) (hwritable : x.server.engine.Writable)
    (hclean : Meets (Tracked.step sql) (PgTurn.Clean sql)
      ⟨final (pgDispatchSql sql atBegin .begin x), []⟩ turns) :
    ∃ t, run (Tracked.step sql) ⟨final (pgDispatchSql sql atBegin .begin x), []⟩ turns = some t ∧
      (∀ atEnd : Surroundings, atEnd.io = {} → ∃ y,
        pgDispatchSql sql atEnd .rollback t.session = .ok (some "ROLLBACK") y ∧
          y.txStatus = .idle ∧ x.server.engine.Shows sql.ext.text y.server.engine) ∧
      ∀ (atEnd : Surroundings) name index, atEnd.io = {} →
        pgFindSavepointIndex t.session.savepoints name = some index → ∃ mark y,
          t.marks[index]? = some mark ∧
          pgDispatchSql sql atEnd (.rollbackTo name) t.session = .ok (some "ROLLBACK") y ∧
          y.txStatus = .inTransaction ∧ y.savepoints = t.session.savepoints.take (index + 1) ∧
          mark.Shows sql.ext.text y.server.engine := by
  have hexists : ∀ (turns : List PgTurn) (t : Tracked),
      ∃ t', run (Tracked.step sql) t turns = some t' := by
    intro turns
    induction turns with
    | nil => exact fun t => ⟨t, rfl⟩
    | cons turn turns ih => exact fun t => ih _
  obtain ⟨t, hrun⟩ := hexists turns ⟨final (pgDispatchSql sql atBegin .begin x), []⟩
  have ht := (keeps_nested sql x.server.engine).run (begin_nested hidle hwritable) hclean hrun
  exact ⟨t, hrun, fun atEnd hquiet => dispatch_rollback ht hquiet,
    fun atEnd name index hquiet hfind => dispatch_rollbackTo ht hquiet hfind⟩

end Runs

section Samples

def ordersSession : PgSession := { server := ordersServer .empty }

theorem insertsOne_order : InsertsOne ordersSql (ordersServer .empty).engine
    (.insert .insert ordersKey ["id"] [orderRow 1] none) := by
  refine ⟨.insert, ordersKey, ["id"], orderRow 1, none, ⟨ordersSchema, .empty⟩, rfl, by decide, rfl,
    ?_, "id", "1", eqExpr "id" (.i64 1), rfl, rfl, ?_, ?_, ?_⟩
  · rintro (hnull | ⟨e, hcheck⟩)
    · exact hnull rfl
    · cases hcheck
  · have hother : undoText ordersKey "id" "1" ≠ "INSERT INTO orders (id) VALUES (1)" := by
      decide +kernel
    change parseOrders (undoText ordersKey "id" "1") none = _
    rw [parseOrders, if_neg hother, if_pos rfl]
  · exact fun shown hshown => absurd hshown List.not_mem_nil
  · decide +kernel

/-- A savepoint is set, and an order inserted. -/
def ordersTurns : List PgTurn :=
  [⟨.savepoint "start", atTime 6⟩,
    ⟨.execute (.statement "INSERT INTO orders (id) VALUES (1)"), atTime 7⟩]

theorem savepoints_restore_sample : ∃ t,
    run (Tracked.step ordersSql)
      ⟨final (pgDispatchSql ordersSql (atTime 5) .begin ordersSession), []⟩ ordersTurns = some t ∧
    (∀ atEnd : Surroundings, atEnd.io = {} → ∃ y,
      pgDispatchSql ordersSql atEnd .rollback t.session = .ok (some "ROLLBACK") y ∧
        y.txStatus = .idle ∧ ordersSession.server.engine.Shows ordersSql.ext.text y.server.engine) ∧
    ∀ (atEnd : Surroundings) name index, atEnd.io = {} →
      pgFindSavepointIndex t.session.savepoints name = some index → ∃ mark y,
        t.marks[index]? = some mark ∧
        pgDispatchSql ordersSql atEnd (.rollbackTo name) t.session = .ok (some "ROLLBACK") y ∧
        y.txStatus = .inTransaction ∧ y.savepoints = t.session.savepoints.take (index + 1) ∧
        mark.Shows ordersSql.ext.text y.server.engine := by
  refine savepoints_restore ordersSql ordersSession (atTime 5) ordersTurns rfl
    (writable_ordersServer .empty) ⟨⟨rfl, trivial⟩, fun t ht => ⟨⟨rfl, ?_⟩, fun _ _ => trivial⟩⟩
  cases ht
  exact ⟨rfl, .inr ⟨rfl, _, rfl, insertsOne_order⟩⟩

end Samples

end SkeinDB.Sessions
