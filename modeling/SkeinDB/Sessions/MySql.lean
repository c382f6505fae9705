import SkeinDB.Sessions.Sql
import SkeinDB.Values.ObjectsPull

/-!
# MySQL sessions

`skeindb/src/server.rs`: `mysql_execute_sql` on the statements that write rows and those that begin
and end a transaction. A statement is applied to the engine at once. In a transaction the session
keeps, for an insertion of one row, the text of a statement that deletes it, and `ROLLBACK` executes
these texts from the last to the first.
-/
namespace SkeinDB.Sessions
open SkeinDB.Queries SkeinDB.Tables SkeinDB.Transition

structure MySqlSession where
  defaultDb : Option String := none
  autocommit : Bool := true
  txActive : Bool := false
  txUndoSql : List String := []

structure Server where
  engine : Engine
  session : MySqlSession

/-- What a session takes from elsewhere: the base64 decoder, and the insertions that it makes of
the rows of a SELECT. -/
structure MySql (X ι : Type) extends Sql X ι where
  decodeBase64Text : String → Option (List UInt8)
  insertsOfSelect : String → Option String → Engine → Except String (List String)

section Undo
variable {X ι : Type} (sql : MySql X ι)

/-- The text in quotes, with those inside it doubled. -/
def quotedBy (quote : Char) (text : String) : String :=
  String.ofList (quote :: (text.toList.flatMap fun c => if c = quote then [c, c] else [c]) ++ [quote])

def mysqlQuoteIdent (ident : String) : String := quotedBy '\x60' ident

def quoted (text : String) : String := quotedBy '\'' text

def hexEncode (bytes : List UInt8) : String := String.ofList (bytes.flatMap Values.hexByte)

def mysqlRenderDefaultLit : Lit → String
  | .null => "NULL"
  | .bool v => if v then "1" else "0"
  | .i64 v => toString v
  | .u64 v => toString v
  | .f64 v => sql.fmt.showF64 v
  | .dec v => v
  | .str v => quoted v
  | .date iso => quoted iso
  | .time iso => quoted iso
  | .datetime iso => quoted iso
  | .uuid v => quoted v
  | .bytes b64 => ((sql.decodeBase64Text b64).map fun bytes => "X'" ++ hexEncode bytes ++ "'").getD "NULL"
  | .json _ => "NULL"
  | .embedding _ _ _ => "NULL"

/-- The value of the only primary-key column that the row of an insertion went in under. -/
def undoLiteral (schema : TableSchema) (pkName : String) (rows : List RowObject) (lastInsertId : ℕ) :
    Option String :=
  let autoIncrement := schema.columns.any fun col => col.name = pkName && col.autoIncrement
  if autoIncrement && lastInsertId ≠ 0 then some (toString lastInsertId)
  else do
    let row ← rows.head?
    let lit ← row pkName
    return mysqlRenderDefaultLit sql lit

/-- The text of the deletion of a row. -/
def undoText (table : TableKey) (pkName pkLiteral : String) : String :=
  "DELETE FROM " ++ mysqlQuoteIdent table.db ++ "." ++ mysqlQuoteIdent table.table ++ " WHERE " ++
    mysqlQuoteIdent pkName ++ " = " ++ pkLiteral ++ " LIMIT 1"

def mysqlBuildInsertUndoSql (s : Engine) (text : String) (defaultDb : Option String)
    (write : WriteResult) : Option String :=
  if write.affected ≠ 1 then none
  else
    match sql.parseSqlPlan text defaultDb with
    | .ok (.insert _ table _ rows _) =>
      match s.getSchema table with
      | .error _ => none
      | .ok schema =>
        match schema.primaryKey with
        | [pkName] => (undoLiteral sql schema pkName rows write.lastInsertId).map
            (undoText table pkName)
        | _ => none
    | _ => none

end Undo

inductive MySqlCommand
  | setAutocommit (enabled : Bool)
  | startTransaction
  | commit
  | rollback
  | truncate (table : String)
  | insertSelect (text : String)
  | statement (text : String)

section Session
variable {X ι : Type} [DecidableEq ι] (sql : MySql X ι) (at_ : Surroundings)

def onEngine {α : Type} (m : EStateM String Engine α) : EStateM String Server α :=
  zoom Server.engine (fun s x => { x with engine := s }) m

/-- Execute a text of which the session keeps nothing. -/
def executeUntracked (text : String) (defaultDb : Option String) : EStateM String Server Unit := do
  let _ ← onEngine (sqlExec sql.toSql at_ text defaultDb)

def mysqlRollbackTransaction (undoSql : List String) : EStateM String Engine Unit :=
  undoSql.reverse.foldlM (fun _ text => do let _ ← sqlExec sql.toSql at_ text none) ()

/-- What the session keeps of a statement that was executed. -/
def MySqlSession.record (session : MySqlSession) (s : Engine) (text : String) (result : SqlResult) :
    MySqlSession :=
  if result.statement ∈ ["insert", "update", "delete"] ∧ (!session.autocommit || session.txActive)
  then { session with
    txActive := true
    txUndoSql := session.txUndoSql ++ if result.statement = "insert" then
      (mysqlBuildInsertUndoSql sql s text session.defaultDb result.write).toList else [] }
  else session

def Server.ended (x : Server) : Server :=
  { x with session := { x.session with txActive := false, txUndoSql := [] } }

def Server.record (text : String) (result : SqlResult) (x : Server) : Server :=
  { x with session := x.session.record sql x.engine text result }

def mysqlExecuteSql : MySqlCommand → EStateM String Server Unit
  | .setAutocommit enabled => modify fun x => { x with
      session := if enabled then
          { x.session with autocommit := true, txActive := false, txUndoSql := [] }
        else { x.session with autocommit := false } }
  | .startTransaction =>
    modify fun x => { x with session := { x.session with txActive := true, txUndoSql := [] } }
  | .commit =>
    modify Server.ended
  | .rollback => do
    onEngine (mysqlRollbackTransaction sql at_ (← get).session.txUndoSql)
    modify Server.ended
  | .truncate table => do
    executeUntracked sql at_ ("DELETE FROM " ++ table) (← get).session.defaultDb
  | .insertSelect text => do
    let x ← get
    match sql.insertsOfSelect text x.session.defaultDb x.engine with
    | .error e => throw e
    | .ok texts =>
      texts.foldlM (fun _ text => executeUntracked sql at_ text x.session.defaultDb) ()
  | .statement text => do
    let result ← onEngine (sqlExec sql.toSql at_ text (← get).session.defaultDb)
    modify (Server.record sql text result)

end Session

end SkeinDB.Sessions
