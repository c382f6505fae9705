import SkeinDB.Queries.Execute

/-!
# Calls, casts and cases

`skeindb-skeinql/src/types.rs` and `skeindb/src/engine.rs`: the expressions beside columns,
literals, parameters and operators. `eval_expr` refuses subqueries, and
`rewrite_group_by_dedup_having_expr` goes down into the operands of the rest.
-/
namespace SkeinDB.Queries
open SkeinDB.Tables

/-- The forms of expressions that `Expr` leaves to its parameter, with queries of type `Q` and
types of type `T`. -/
inductive Form (Q T : Type)
  | func (name : String) (args : List (Expr (Form Q T))) (distinct : Option Bool)
  | cast (expr : Expr (Form Q T)) (target : T)
  | case (when : List (Expr (Form Q T) × Expr (Form Q T))) (orElse : Option (Expr (Form Q T)))
  | subquery (query : Q)
  | exists (query : Q) (negated : Bool)

/-- The operators, and the functions by their names and the casts by their types. A function is
given what its arguments stand for, so that it need not look at all of them. -/
structure Functions (T : Type) where
  operators : Semantics Empty
  func : String → List Answer → Answer
  castLit : Lit → T → Answer

variable {Q T : Type}

section Evaluation
variable (F : Functions T) (scope : Scope) (args : List Lit)

def mysqlIfConditionTruth (fmt : Formats) : Lit → Option Bool
  | .null => none
  | .bool v => some v
  | .i64 v => some (v != 0)
  | .u64 v => some (v != 0)
  | .f64 v => some (v != 0)
  | .dec v => (fmt.parseF64 v).map (· != 0)
  | .str v => (fmt.parseF64 v).map (· != 0)
  | _ => none

/-- The branches of a CASE, each with its condition, up to the first that is taken. -/
def evalCase (fmt : Formats) (orElse : Option Answer) : List (Answer × Answer) → Answer
  | [] => orElse.getD (.ok .null)
  | (cond, out) :: rest => do
    let v ← cond
    if mysqlIfConditionTruth fmt v = some true then out else evalCase fmt orElse rest

mutual

def evalForm : Form Q T → Answer
  | .func name fargs _ => F.func name (evalArgs fargs)
  | .cast expr target => do F.castLit (← evalInner expr) target
  | .case when orElse => evalCase F.operators.fmt (evalInnerOperand orElse) (evalWhens when)
  | .subquery _ => .error "expression form not implemented"
  | .exists _ _ => .error "expression form not implemented"

def evalInner : Expr (Form Q T) → Answer
  | .lit lit => .ok lit
  | .param param =>
    match args[param]? with
    | none => .error ("missing param " ++ toString param)
    | some v => .ok v
  | .col col table => scope col table
  | .op op a b vargs list lo hi => evalOp F.operators op (evalInnerOperand a) (evalInnerOperand b)
      (evalInnerOperands vargs) (evalInnerOperands list) (evalInnerOperand lo) (evalInnerOperand hi)
  | .other x => evalForm x

def evalInnerOperand : Option (Expr (Form Q T)) → Option Answer
  | none => none
  | some e => some (evalInner e)

def evalInnerOperands : Option (List (Expr (Form Q T))) → Option (List Answer)
  | none => none
  | some es => some (evalArgs es)

def evalArgs : List (Expr (Form Q T)) → List Answer
  | [] => []
  | e :: es => evalInner e :: evalArgs es

def evalWhens : List (Expr (Form Q T) × Expr (Form Q T)) → List (Answer × Answer)
  | [] => []
  | (cond, out) :: when => (evalInner cond, evalInner out) :: evalWhens when

end

end Evaluation

def Functions.semantics (F : Functions T) : Semantics (Form Q T) where
  fmt := F.operators.fmt
  otherOp := F.operators.otherOp
  other x scope args := evalForm F scope args x

section Inner
variable (F : Functions T) (scope : Scope) (args : List Lit)

mutual

/-- An expression within a form has the same answer as one that stands alone. -/
theorem evalInner_eq (e : Expr (Form Q T)) :
    evalInner F scope args e = evalExpr F.semantics scope args e := by
  cases e with
  | op op a b vargs list lo hi =>
    rw [evalInner, evalExpr, evalInnerOperand_eq a, evalInnerOperand_eq b,
      evalInnerOperands_eq vargs, evalInnerOperands_eq list, evalInnerOperand_eq lo,
      evalInnerOperand_eq hi]
    rfl
  | _ => rfl

theorem evalInnerOperand_eq (e : Option (Expr (Form Q T))) :
    evalInnerOperand F scope args e = evalOperand F.semantics scope args e := by
  cases e with
  | none => rfl
  | some e => rw [evalInnerOperand, evalInner_eq e, evalOperand]

theorem evalInnerOperands_eq (es : Option (List (Expr (Form Q T)))) :
    evalInnerOperands F scope args es = evalOperands F.semantics scope args es := by
  cases es with
  | none => rfl
  | some es => rw [evalInnerOperands, evalArgs_eq es, evalOperands]

theorem evalArgs_eq (es : List (Expr (Form Q T))) :
    evalArgs F scope args es = evalEach F.semantics scope args es := by
  cases es with
  | nil => rfl
  | cons e es => rw [evalArgs, evalInner_eq e, evalArgs_eq es, evalEach]

end

end Inner

section Having
variable (projection : List (SelectItem (Form Q T)))

mutual

def Form.having : Form Q T → Except String (Form Q T)
  | .func name args distinct =>
    if name ∈ ["count", "sum", "min", "max", "avg"] then
      .error "GROUP BY compatibility HAVING does not support aggregate functions in this path"
    else do
      .ok (.func name (← havingArgs args) distinct)
  | .cast expr target => do
    .ok (.cast (← havingInner expr) target)
  | .case when orElse => do
    .ok (.case (← havingWhens when) (← havingInnerOperand orElse))
  | .subquery _ =>
    .error "GROUP BY compatibility HAVING does not support subqueries in this path"
  | .exists _ _ =>
    .error "GROUP BY compatibility HAVING does not support subqueries in this path"

def havingInner : Expr (Form Q T) → Except String (Expr (Form Q T))
  | .lit lit => .ok (.lit lit)
  | .param param => .ok (.param param)
  | .col col table => havingColumn projection col table
  | .op op a b vargs list lo hi => do
    .ok (.op op (← havingInnerOperand a) (← havingInnerOperand b) (← havingInnerOperands vargs)
      (← havingInnerOperands list) (← havingInnerOperand lo) (← havingInnerOperand hi))
  | .other x => (Form.having x).map .other

def havingInnerOperand : Option (Expr (Form Q T)) → Except String (Option (Expr (Form Q T)))
  | none => .ok none
  | some e => (havingInner e).map some

def havingInnerOperands :
    Option (List (Expr (Form Q T))) → Except String (Option (List (Expr (Form Q T))))
  | none => .ok none
  | some es => (havingArgs es).map some

def havingArgs : List (Expr (Form Q T)) → Except String (List (Expr (Form Q T)))
  | [] => .ok []
  | e :: es => do
    let e ← havingInner e
    let es ← havingArgs es
    .ok (e :: es)

def havingWhens : List (Expr (Form Q T) × Expr (Form Q T)) →
    Except String (List (Expr (Form Q T) × Expr (Form Q T)))
  | [] => .ok []
  | (cond, out) :: when => do
    let cond ← havingInner cond
    let out ← havingInner out
    let when ← havingWhens when
    .ok ((cond, out) :: when)

end

mutual

/-- An expression within a form is rewritten as one that stands alone. -/
theorem havingInner_eq (e : Expr (Form Q T)) :
    havingInner projection e = rewriteHaving Form.having projection e := by
  cases e with
  | op op a b vargs list lo hi =>
    rw [havingInner, rewriteHaving, havingInnerOperand_eq a, havingInnerOperand_eq b,
      havingInnerOperands_eq vargs, havingInnerOperands_eq list, havingInnerOperand_eq lo,
      havingInnerOperand_eq hi]
  | _ => rfl

theorem havingInnerOperand_eq (e : Option (Expr (Form Q T))) :
    havingInnerOperand projection e = havingOperand Form.having projection e := by
  cases e with
  | none => rfl
  | some e => rw [havingInnerOperand, havingInner_eq e, havingOperand]

theorem havingInnerOperands_eq (es : Option (List (Expr (Form Q T)))) :
    havingInnerOperands projection es = havingOperands Form.having projection es := by
  cases es with
  | none => rfl
  | some es => rw [havingInnerOperands, havingArgs_eq es, havingOperands]

theorem havingArgs_eq (es : List (Expr (Form Q T))) :
    havingArgs projection es = havingEach Form.having projection es := by
  cases es with
  | nil => rfl
  | cons e es => rw [havingArgs, havingInner_eq e, havingArgs_eq es, havingEach]

end

end Having

end SkeinDB.Queries
