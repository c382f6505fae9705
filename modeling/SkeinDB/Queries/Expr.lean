import SkeinDB.Tables.Literals

/-!
# Expressions and predicates

`skeindb-skeinql/src/types.rs` and `skeindb/src/engine.rs`: `eval_expr` evaluates an expression
over the columns of a row, with the arguments of the statement. Comparisons with `NULL` are
unknown, and `AND`, `OR` and `NOT` follow three-valued logic.
-/
namespace SkeinDB.Queries
open SkeinDB.Tables

/-- `other` holds the calls, casts, cases and subqueries, all of type `X`. -/
inductive Expr (X : Type)
  | col (col : String) (table : Option String)
  | lit (lit : Lit)
  | param (param : ℕ)
  | op (op : String) (a b : Option (Expr X)) (args list : Option (List (Expr X)))
      (lo hi : Option (Expr X))
  | other (x : X)

/-- Induction over the operands that `a`, `b`, `args` and `list` hold. -/
theorem Expr.induction {X : Type} {P : Expr X → Prop} (hcol : ∀ col table, P (.col col table))
    (hlit : ∀ lit, P (.lit lit)) (hparam : ∀ param, P (.param param)) (hother : ∀ x, P (.other x))
    (hop : ∀ op a b args list lo hi, (∀ e ∈ a, P e) → (∀ e ∈ b, P e) →
      (∀ es ∈ args, ∀ e ∈ es, P e) → (∀ es ∈ list, ∀ e ∈ es, P e) →
      P (.op op a b args list lo hi)) (e : Expr X) : P e := by
  induction hn : sizeOf e using Nat.strong_induction_on generalizing e with
  | _ n ih =>
    subst hn
    cases e with
    | col col table => exact hcol col table
    | lit lit => exact hlit lit
    | param param => exact hparam param
    | other x => exact hother x
    | op op a b args list lo hi =>
      refine hop op a b args list lo hi ?_ ?_ ?_ ?_
      · rintro e ⟨⟩
        exact ih _ (by simp; omega) e rfl
      · rintro e ⟨⟩
        exact ih _ (by simp; omega) e rfl
      · rintro es ⟨⟩ e he
        exact ih _ (by have := List.sizeOf_lt_of_mem he; simp; omega) e rfl
      · rintro es ⟨⟩ e he
        exact ih _ (by have := List.sizeOf_lt_of_mem he; simp; omega) e rfl

abbrev Answer := Except String Lit

/-- What a reference to a column, perhaps with a table, stands for. -/
abbrev Scope := String → Option String → Answer

/-- How literals are read, and the operators and expressions that are not spelled out here. The
operators are functions of what their operands stand for. -/
structure Semantics (X : Type) where
  fmt : Formats
  otherOp : String → Option Answer → Option Answer → Answer
  other : X → Scope → List Lit → Answer

def predicateTruth : Lit → Option Bool
  | .bool v => some v
  | .null => none
  | _ => some false

/-- The answers one after the other, up to the first that is `stop`. -/
def evalUntil (stop sawNull : Bool) : List Answer → Answer
  | [] => .ok (if sawNull then .null else .bool (!stop))
  | .error e :: _ => .error e
  | .ok v :: rest =>
    match predicateTruth v with
    | none => evalUntil stop true rest
    | some b => if b = stop then .ok (.bool stop) else evalUntil stop sawNull rest

def evalAndList (xs : List Answer) : Answer := evalUntil false false xs

def evalOrList (xs : List Answer) : Answer := evalUntil true false xs

/-- The first operand has to be there. -/
def requireOperand (op : String) : Option Answer → Answer
  | none => .error (op ++ " requires a")
  | some x => x

def negated : Option Bool → Lit
  | some b => .bool !b
  | none => .null

def evalNot (a : Option Answer) : Answer := do
  let v ← requireOperand "not" a
  .ok (negated (predicateTruth v))

section Semantics
variable (fmt : Formats)

/-- Both operands have to be there before the first is evaluated. -/
def evalBinary (op : String) (f : Lit → Lit → Lit) (a b : Option Answer) : Answer :=
  match a, b with
  | none, _ => .error (op ++ " requires a")
  | _, none => .error (op ++ " requires b")
  | some a, some b => do
    let va ← a
    let vb ← b
    .ok (f va vb)

def evalComparison (op : String) (holds : Ordering → Bool) (a b : Option Answer) : Answer :=
  evalBinary op (fun va vb =>
    if va.isNull || vb.isNull then .null else .bool (holds (cmpLit fmt va vb))) a b

def evalInList (va : Lit) (sawNull : Bool) : List Answer → Answer
  | [] => .ok (if sawNull then .null else .bool false)
  | .error e :: _ => .error e
  | .ok vx :: rest =>
    if vx.isNull then evalInList va true rest
    else if cmpLit fmt va vx = .eq then .ok (.bool true) else evalInList va sawNull rest

def evalIn (a : Option Answer) (list : Option (List Answer)) : Answer := do
  let va ← requireOperand "in" a
  if va.isNull then .ok .null
  else match list with
    | none => .error "in requires list"
    | some xs => evalInList fmt va false xs

def evalBetween (a lo hi : Option Answer) : Answer :=
  match a, lo, hi with
  | none, _, _ => .error "between requires a"
  | _, none, _ => .error "between requires lo"
  | _, _, none => .error "between requires hi"
  | some a, some lo, some hi => do
    let va ← a
    let vlo ← lo
    let vhi ← hi
    if va.isNull || vlo.isNull || vhi.isNull then .ok .null
    else .ok (.bool (cmpLit fmt va vlo != .lt && cmpLit fmt va vhi != .gt))

def evalNullSafeEq (a b : Option Answer) : Answer :=
  evalBinary "null_safe_eq" (fun va vb => .bool
    (if va.isNull || vb.isNull then va.isNull && vb.isNull else cmpLit fmt va vb == .eq)) a b

def evalIsNull (a : Option Answer) : Answer := do
  let va ← requireOperand "is_null" a
  .ok (.bool va.isNull)

/-- The operands of `and` and `or`, in the variadic or in the binary form. -/
def connected {α : Type} (a b : Option α) (args : Option (List α)) : List α :=
  args.getD (a.toList ++ b.toList)

theorem connected_map {α β : Type} (f : α → β) (a b : Option α) (args : Option (List α)) :
    connected (a.map f) (b.map f) (args.map (List.map f)) = (connected a b args).map f := by
  cases a <;> cases b <;> cases args <;> rfl

theorem mem_connected {α : Type} {a b : Option α} {args : Option (List α)} {x : α}
    (hx : x ∈ connected a b args) : x ∈ a ∨ x ∈ b ∨ ∃ xs ∈ args, x ∈ xs := by
  cases args with
  | some xs => exact .inr (.inr ⟨xs, rfl, hx⟩)
  | none =>
    rcases List.mem_append.mp hx with h | h
    · exact .inl (Option.mem_toList.mp h)
    · exact .inr (.inl (Option.mem_toList.mp h))

variable {X : Type} (sem : Semantics X)

def evalOp (op : String) (a b : Option Answer) (args list : Option (List Answer))
    (lo hi : Option Answer) : Answer :=
  match op with
  | "and" => evalAndList (connected a b args)
  | "or" => evalOrList (connected a b args)
  | "not" => evalNot a
  | "eq" => evalComparison sem.fmt op (· == .eq) a b
  | "ne" => evalComparison sem.fmt op (· != .eq) a b
  | "lt" => evalComparison sem.fmt op (· == .lt) a b
  | "le" => evalComparison sem.fmt op (· != .gt) a b
  | "gt" => evalComparison sem.fmt op (· == .gt) a b
  | "ge" => evalComparison sem.fmt op (· != .lt) a b
  | "in" => evalIn sem.fmt a list
  | "between" => evalBetween sem.fmt a lo hi
  | "null_safe_eq" => evalNullSafeEq sem.fmt a b
  | "is_null" => evalIsNull a
  | op => sem.otherOp op a b

variable (scope : Scope) (args : List Lit)

mutual

/-- An operand that is not reached is evaluated here all the same: its answer is not used. -/
def evalExpr : Expr X → Answer
  | .lit lit => .ok lit
  | .param param =>
    match args[param]? with
    | none => .error ("missing param " ++ toString param)
    | some v => .ok v
  | .col col table => scope col table
  | .op op a b vargs list lo hi => evalOp sem op (evalOperand a) (evalOperand b)
      (evalOperands vargs) (evalOperands list) (evalOperand lo) (evalOperand hi)
  | .other x => sem.other x scope args

def evalOperand : Option (Expr X) → Option Answer
  | none => none
  | some e => some (evalExpr e)

def evalOperands : Option (List (Expr X)) → Option (List Answer)
  | none => none
  | some es => some (evalEach es)

def evalEach : List (Expr X) → List Answer
  | [] => []
  | e :: es => evalExpr e :: evalEach es

end

theorem evalOperand_eq (e : Option (Expr X)) :
    evalOperand sem scope args e = e.map (evalExpr sem scope args) := by
  cases e <;> rfl

theorem evalEach_eq (es : List (Expr X)) :
    evalEach sem scope args es = es.map (evalExpr sem scope args) := by
  induction es with
  | nil => rfl
  | cons e es ih => rw [evalEach, ih, List.map_cons]

theorem evalOperands_eq (es : Option (List (Expr X))) :
    evalOperands sem scope args es = es.map (List.map (evalExpr sem scope args)) := by
  cases es with
  | none => rfl
  | some es => rw [evalOperands, evalEach_eq, Option.map_some]

def evalPredicate (e : Expr X) : Except String Bool := do
  let v ← evalExpr sem scope args e
  .ok (predicateTruth v == some true)

theorem evalExpr_of_true {e : Expr X} (h : evalPredicate sem scope args e = .ok true) :
    ∃ v, evalExpr sem scope args e = .ok v ∧ predicateTruth v = some true := by
  rw [evalPredicate] at h
  rcases heval : evalExpr sem scope args e with _ | v
  · rw [heval] at h
    cases h
  · rw [heval] at h
    exact ⟨v, rfl, eq_of_beq (Except.ok.inj h)⟩

end Semantics

def exprConstValue {X : Type} (args : List Lit) : Expr X → Option Lit
  | .lit lit => some lit
  | .param param => args[param]?
  | _ => none

theorem evalUntil_sawNull (xs : List Answer) {v : Lit} (h : evalUntil false true xs = .ok v) :
    predicateTruth v ≠ some true := by
  induction xs with
  | nil =>
    cases h
    exact fun hnull => by cases hnull
  | cons x xs ih =>
    rcases x with e | w
    · cases h
    · rw [evalUntil] at h
      rcases hw : predicateTruth w with _ | b <;> simp only [hw] at h
      · exact ih h
      · split at h
        · cases h
          exact fun hfalse => by cases hfalse
        · exact ih h

/-- A conjunction is true where all its operands are. -/
theorem evalUntil_true {sawNull : Bool} (xs : List Answer) {v : Lit}
    (h : evalUntil false sawNull xs = .ok v) (hv : predicateTruth v = some true) :
    ∀ x ∈ xs, ∃ w, x = .ok w ∧ predicateTruth w = some true := by
  induction xs generalizing sawNull with
  | nil => exact fun x hx => absurd hx List.not_mem_nil
  | cons x xs ih =>
    rcases x with e | w
    · cases h
    · rw [evalUntil] at h
      rcases hw : predicateTruth w with _ | b <;> simp only [hw] at h
      · exact absurd hv (evalUntil_sawNull xs h)
      · split at h
        · cases h
          cases hv
        · rename_i hb
          obtain rfl : b = true := Bool.eq_true_of_not_eq_false hb
          intro y hy
          rcases List.mem_cons.mp hy with rfl | hy
          · exact ⟨w, rfl, hw⟩
          · exact ih h y hy

theorem evalExpr_const {X : Type} {sem : Semantics X} {scope : Scope} {args : List Lit}
    {e : Expr X} {v : Lit} (h : exprConstValue args e = some v) :
    evalExpr sem scope args e = .ok v := by
  cases e with
  | lit lit =>
    cases h
    rfl
  | param param =>
    have hget : args[param]? = some v := h
    rw [evalExpr, hget]
  | col => cases h
  | op => cases h
  | other => cases h

/-- The columns of a row as such, whatever table the reference names. -/
def rowScope (row : RowObject) : Scope := fun col _ =>
  match row col with
  | none => .error ("unknown column " ++ col)
  | some v => .ok v

end SkeinDB.Queries
