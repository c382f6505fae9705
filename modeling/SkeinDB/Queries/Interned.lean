import SkeinDB.Queries.Expr

/-!
# Predicates over interned columns

`skeindb/src/engine.rs`: a predicate that compares interned columns with constants is compiled to
a plan over the identifiers of the constants. A plan that cannot decide a row leaves it to the
interpreter; where it decides, its verdict has to be that of `eval_predicate`.
-/
namespace SkeinDB.Queries
open SkeinDB.Tables

inductive InternedPredicatePlan (ι : Type)
  | constant (value : Option Bool)
  | eq (column : String) (valueId : ι) (negated : Bool)
  | isIn (column : String) (valueIds : List ι) (sawNull : Bool)
  | and (items : List (InternedPredicatePlan ι))
  | or (items : List (InternedPredicatePlan ι))
  | not (item : InternedPredicatePlan ι)

/-- The identifiers of the values that a column can intern. -/
structure Interning (ι : Type) where
  cellId : Lit → Option ι
  embeddingId : (dims : ℕ) → List Float32 → (model : Option String) → Option ι

def internedValueId {ι : Type} (ids : Interning ι) : Lit → Option ι
  | .str v => ids.cellId (.str v)
  | .json v => ids.cellId (.json v)
  | .bytes b64 => ids.cellId (.bytes b64)
  | .uuid v => ids.cellId (.uuid v)
  | .embedding dims v model => ids.embeddingId dims v model
  | _ => none

def canonicalSchemaColumnName (schema : TableSchema) (column : String) : Option String :=
  (schema.columns.find? fun candidate => eqIgnoreAsciiCase candidate.name column).map (·.name)

def predicateConstantTruth {X : Type} (args : List Lit) (e : Expr X) : Option (Option Bool) :=
  match exprConstValue args e with
  | some (.bool v) => some (some v)
  | some .null => some none
  | _ => none

/-- The table whose predicates are compiled. -/
structure InternedTable (ι : Type) where
  schema : TableSchema
  columnIsInterned : String → Bool
  acceptedAliases : List String
  ids : Interning ι

section Compile
variable {X ι : Type} (t : InternedTable ι) (args : List Lit)

def resolveInternedColumnRef : Expr X → Option String
  | .col col table =>
    if table.all fun name => t.acceptedAliases.any (eqIgnoreAsciiCase name) then
      (canonicalSchemaColumnName t.schema col).filter fun canonical => t.columnIsInterned canonical
    else none
  | _ => none

def compileEq (negated : Bool) (column : String) (value : Expr X) :
    Option (InternedPredicatePlan ι) :=
  match exprConstValue args value with
  | none => none
  | some v =>
    if v.isNull then some (.constant none)
    else (internedValueId t.ids v).map fun id => .eq column id negated

def compileComparison (negated : Bool) (a b : Option (Expr X)) :
    Option (InternedPredicatePlan ι) :=
  match a.bind (resolveInternedColumnRef t), b.bind (resolveInternedColumnRef t) with
  | some column, none => b.bind (compileEq t args negated column)
  | none, some column => a.bind (compileEq t args negated column)
  | _, _ => none

/-- The identifiers of the constants of a list, and whether one of them is null. -/
def internedValueIds : List (Expr X) → Option (List ι × Bool)
  | [] => some ([], false)
  | item :: rest =>
    match exprConstValue args item, internedValueIds rest with
    | some v, some (ids, sawNull) =>
      if v.isNull then some (ids, true)
      else (internedValueId t.ids v).map fun id => (id :: ids, sawNull)
    | _, _ => none

def compileIn (a : Option (Expr X)) (list : Option (List (Expr X))) :
    Option (InternedPredicatePlan ι) := do
  let column ← a.bind (resolveInternedColumnRef t)
  let (valueIds, sawNull) ← list.bind (internedValueIds t args)
  some (.isIn column valueIds sawNull)

/-- The plans of all operands, of which there has to be one. -/
def allPlans (plans : List (Option (InternedPredicatePlan ι))) :
    Option (List (InternedPredicatePlan ι)) :=
  if plans = [] then none else plans.mapM id

def compileOp (op : String) (a b : Option (Expr X)) (list : Option (List (Expr X)))
    (inner : Option (Option (InternedPredicatePlan ι)))
    (items : List (Option (InternedPredicatePlan ι))) : Option (InternedPredicatePlan ι) :=
  match op with
  | "and" => (allPlans items).map .and
  | "or" => (allPlans items).map .or
  | "not" => inner.join.map .not
  | "eq" => compileComparison t args false a b
  | "ne" => compileComparison t args true a b
  | "in" => compileIn t args a list
  | _ => none

mutual

def compileInternedPredicateExpr : Expr X → Option (InternedPredicatePlan ι)
  | .op op a b vargs list _ _ => compileOp t args op a b list (compileOperand a)
      (connected (compileOperand a) (compileOperand b) (compileOperands vargs))
  | .lit lit => (predicateConstantTruth args (.lit lit : Expr X)).map .constant
  | .param param => (predicateConstantTruth args (.param param : Expr X)).map .constant
  | .col _ _ => none
  | .other _ => none

def compileOperand : Option (Expr X) → Option (Option (InternedPredicatePlan ι))
  | none => none
  | some e => some (compileInternedPredicateExpr e)

def compileOperands : Option (List (Expr X)) → Option (List (Option (InternedPredicatePlan ι)))
  | none => none
  | some es => some (compileEach es)

def compileEach : List (Expr X) → List (Option (InternedPredicatePlan ι))
  | [] => []
  | e :: es => compileInternedPredicateExpr e :: compileEach es

end

theorem compileOperand_eq (e : Option (Expr X)) :
    compileOperand t args e = e.map (compileInternedPredicateExpr t args) := by
  cases e <;> rfl

theorem compileEach_eq (es : List (Expr X)) :
    compileEach t args es = es.map (compileInternedPredicateExpr t args) := by
  induction es with
  | nil => rfl
  | cons e es ih => rw [compileEach, ih, List.map_cons]

theorem compileOperands_eq (es : Option (List (Expr X))) :
    compileOperands t args es = es.map (List.map (compileInternedPredicateExpr t args)) := by
  cases es with
  | none => rfl
  | some es => rw [compileOperands, compileEach_eq, Option.map_some]

theorem compile_op (op : String) (a b : Option (Expr X)) (vargs list : Option (List (Expr X)))
    (lo hi : Option (Expr X)) :
    compileInternedPredicateExpr t args (.op op a b vargs list lo hi) =
      compileOp t args op a b list (a.map (compileInternedPredicateExpr t args))
        ((connected a b vargs).map (compileInternedPredicateExpr t args)) := by
  rw [compileInternedPredicateExpr, compileOperand_eq, compileOperand_eq, compileOperands_eq,
    connected_map]

end Compile

/-- The truth of a plan on a row, or that the row has to be left to the interpreter. -/
abbrev PlanAnswer := Except Unit (Option Bool)

def planUntil (stop sawNull needsFallback : Bool) : List PlanAnswer → PlanAnswer
  | [] => if needsFallback then .error () else .ok (if sawNull then none else some !stop)
  | .error _ :: rest => planUntil stop sawNull true rest
  | .ok none :: rest => planUntil stop true needsFallback rest
  | .ok (some b) :: rest =>
    if b = stop then .ok (some stop) else planUntil stop sawNull needsFallback rest

section Eval
variable {ι : Type} [DecidableEq ι] (ids : Interning ι) (lookup : String → Option Lit)

/-- A verdict on the identifier of the value of a column. -/
def onColumn (column : String) (verdict : ι → Option Bool) : PlanAnswer :=
  match lookup column with
  | none => .error ()
  | some value =>
    if value.isNull then .ok none
    else match internedValueId ids value with
      | none => .error ()
      | some rowId => .ok (verdict rowId)

mutual

def evalCompiledInternedPredicate : InternedPredicatePlan ι → PlanAnswer
  | .constant value => .ok value
  | .eq column valueId negated => onColumn ids lookup column fun rowId =>
      some (if negated then !decide (rowId = valueId) else decide (rowId = valueId))
  | .isIn column valueIds sawNull => onColumn ids lookup column fun rowId =>
      if rowId ∈ valueIds then some true else if sawNull then none else some false
  | .and items => planUntil false false false (evalPlans items)
  | .or items => planUntil true false false (evalPlans items)
  | .not item => (evalCompiledInternedPredicate item).map fun truth => truth.map (!·)

def evalPlans : List (InternedPredicatePlan ι) → List PlanAnswer
  | [] => []
  | item :: items => evalCompiledInternedPredicate item :: evalPlans items

end

theorem evalPlans_eq (items : List (InternedPredicatePlan ι)) :
    evalPlans ids lookup items = items.map (evalCompiledInternedPredicate ids lookup) := by
  induction items with
  | nil => rfl
  | cons item items ih => rw [evalPlans, ih, List.map_cons]

def compiledInternedPredicateMatchesLookup (plan : InternedPredicatePlan ι) : Option Bool :=
  match evalCompiledInternedPredicate ids lookup plan with
  | .error _ => none
  | .ok truth => some (truth.getD false)

end Eval

/-- The interpreter has an answer, and where the plan has one it is the same. -/
def Decides (p : PlanAnswer) (x : Answer) : Prop :=
  ∃ v, x = .ok v ∧ ∀ truth, p = .ok truth → predicateTruth v = truth

/-- The two decide every answer alike up to the first that stops the interpreter. -/
inductive Reaches (stop : Bool) : List PlanAnswer → List Answer → Prop
  | nil : Reaches stop [] []
  | last {p v ps xs} (h : Decides p (.ok v)) (hv : predicateTruth v = some stop) :
      Reaches stop (p :: ps) (.ok v :: xs)
  | next {p x ps xs} (h : Decides p x) (hrest : Reaches stop ps xs) :
      Reaches stop (p :: ps) (x :: xs)

section Connectives
variable {stop : Bool} {ps : List PlanAnswer} {xs : List Answer}

/-- After an undecided answer only the one that stops can decide. -/
theorem planUntil_fallback (ps : List PlanAnswer) {sawNull : Bool} {truth : Option Bool}
    (h : planUntil stop sawNull true ps = .ok truth) : truth = some stop := by
  induction ps generalizing sawNull with
  | nil => cases h
  | cons p ps ih =>
    rcases p with _ | _ | b
    · exact ih h
    · exact ih h
    · rw [planUntil] at h
      split at h
      · exact (Except.ok.inj h).symm
      · exact ih h

theorem decides_last {p : PlanAnswer} {v : Lit} (h : Decides p (.ok v))
    (hv : predicateTruth v = some stop) (sawNull sawNull' needsFallback : Bool) :
    Decides (planUntil stop sawNull needsFallback (p :: ps))
      (evalUntil stop sawNull' (.ok v :: xs)) := by
  obtain ⟨w, hw, hp⟩ := h
  cases hw
  refine ⟨.bool stop, by rw [evalUntil, hv]; exact if_pos rfl, fun truth htruth => ?_⟩
  rcases p with _ | t
  · exact (planUntil_fallback ps htruth).symm
  · obtain rfl : t = some stop := (hp t rfl).symm.trans hv
    rw [planUntil, if_pos rfl] at htruth
    exact (Except.ok.inj htruth)

theorem Reaches.decides (h : Reaches stop ps xs) {sawNull sawNull' needsFallback : Bool}
    (hsaw : needsFallback = false → sawNull = sawNull') :
    Decides (planUntil stop sawNull needsFallback ps) (evalUntil stop sawNull' xs) := by
  induction h generalizing sawNull sawNull' needsFallback with
  | nil =>
    refine ⟨_, rfl, fun truth htruth => ?_⟩
    cases needsFallback with
    | true => cases htruth
    | false =>
      rw [hsaw rfl] at htruth
      cases htruth
      cases sawNull' <;> rfl
  | last h hv => exact decides_last h hv _ _ _
  | @next p x ps xs h _ ih =>
    obtain ⟨v, rfl, hp⟩ := h
    rcases hv : predicateTruth v with _ | b
    · rw [evalUntil, hv]
      rcases p with _ | t
      · exact ih fun hfalse => by cases hfalse
      · obtain rfl : t = none := (hp t rfl).symm.trans hv
        exact ih fun _ => rfl
    · by_cases hb : b = stop
      · exact decides_last ⟨v, rfl, hp⟩ (hb ▸ hv) _ _ _
      · have heval : evalUntil stop sawNull' (.ok v :: xs) = evalUntil stop sawNull' xs := by
          rw [evalUntil, hv]
          exact if_neg hb
        rw [heval]
        rcases p with _ | t
        · exact ih fun hfalse => by cases hfalse
        · obtain rfl : t = some b := (hp t rfl).symm.trans hv
          rw [planUntil, if_neg hb]
          exact ih hsaw

end Connectives

section Agreement
variable {X ι : Type} (sem : Semantics X) (t : InternedTable ι) (scope : Scope)
  (args : List Lit) (lookup : String → Option Lit)

/-- The interpreter finds the column under the name of the reference, with the value that the plan
looks up. -/
def ColumnAgrees (e : Expr X) : Prop :=
  ∀ column ∈ resolveInternedColumnRef t e, ∃ v, evalExpr sem scope args e = .ok v ∧
    ∀ w ∈ lookup column, w = v

/-- Values that can be interned compare as equal just when they are the same. -/
def ValuesAgree (v w : Lit) : Prop :=
  (internedValueId t.ids v).isSome → (internedValueId t.ids w).isSome →
    (cmpLit sem.fmt v w = .eq ↔ v = w)

def ComparisonAgrees (a b : Option (Expr X)) : Prop :=
  (∀ e ∈ a, ColumnAgrees sem t scope args lookup e) ∧
    (∀ e ∈ b, ColumnAgrees sem t scope args lookup e) ∧
    ∀ ea ∈ a, ∀ eb ∈ b, ∀ v w, evalExpr sem scope args ea = .ok v →
      evalExpr sem scope args eb = .ok w → ValuesAgree sem t v w

def InAgrees (a : Option (Expr X)) (list : Option (List (Expr X))) : Prop :=
  ∀ e ∈ a, ColumnAgrees sem t scope args lookup e ∧
    ∀ items ∈ list, ∀ item ∈ items, ∀ v w, evalExpr sem scope args e = .ok v →
      evalExpr sem scope args item = .ok w → ValuesAgree sem t v w

/-- What the interpreter reaches of a list of operands agrees. -/
def AgreesUntil (stop : Bool) : List (Prop × Answer) → Prop
  | [] => True
  | (agrees, x) :: rest =>
    agrees ∧ (x.map predicateTruth ≠ .ok (some stop) → AgreesUntil stop rest)

def agreesOp (op : String) (a b : Option (Expr X)) (list : Option (List (Expr X)))
    (inner : Option (Prop × Answer)) (items : List (Prop × Answer)) : Prop :=
  match op with
  | "and" => AgreesUntil false items
  | "or" => AgreesUntil true items
  | "not" => ∀ operand ∈ inner, operand.1
  | "eq" => ComparisonAgrees sem t scope args lookup a b
  | "ne" => ComparisonAgrees sem t scope args lookup a b
  | "in" => InAgrees sem t scope args lookup a list
  | _ => True

mutual

/-- Every comparison that the interpreter reaches agrees. -/
def Agrees : Expr X → Prop
  | .op op a b vargs list _ _ => agreesOp sem t scope args lookup op a b list (agreesOperand a)
      (connected (agreesOperand a) (agreesOperand b) (agreesOperands vargs))
  | _ => True

def agreesOperand : Option (Expr X) → Option (Prop × Answer)
  | none => none
  | some e => some (Agrees e, evalExpr sem scope args e)

def agreesOperands : Option (List (Expr X)) → Option (List (Prop × Answer))
  | none => none
  | some es => some (agreesEach es)

def agreesEach : List (Expr X) → List (Prop × Answer)
  | [] => []
  | e :: es => (Agrees e, evalExpr sem scope args e) :: agreesEach es

end

theorem agreesOperand_eq (e : Option (Expr X)) : agreesOperand sem t scope args lookup e =
    e.map fun e => (Agrees sem t scope args lookup e, evalExpr sem scope args e) := by
  cases e <;> rfl

theorem agreesEach_eq (es : List (Expr X)) : agreesEach sem t scope args lookup es =
    es.map fun e => (Agrees sem t scope args lookup e, evalExpr sem scope args e) := by
  induction es with
  | nil => rfl
  | cons e es ih => rw [agreesEach, ih, List.map_cons]

theorem agreesOperands_eq (es : Option (List (Expr X))) :
    agreesOperands sem t scope args lookup es = es.map (List.map fun e =>
      (Agrees sem t scope args lookup e, evalExpr sem scope args e)) := by
  cases es with
  | none => rfl
  | some es => rw [agreesOperands, agreesEach_eq, Option.map_some]

theorem agrees_op (op : String) (a b : Option (Expr X)) (vargs list : Option (List (Expr X)))
    (lo hi : Option (Expr X)) :
    Agrees sem t scope args lookup (.op op a b vargs list lo hi) =
      agreesOp sem t scope args lookup op a b list
        (a.map fun e => (Agrees sem t scope args lookup e, evalExpr sem scope args e))
        ((connected a b vargs).map fun e =>
          (Agrees sem t scope args lookup e, evalExpr sem scope args e)) := by
  rw [Agrees, agreesOperand_eq, agreesOperand_eq, agreesOperands_eq, connected_map]

/-- The literals that stand in an expression. -/
inductive Expr.Holds : Expr X → Lit → Prop
  | lit (v : Lit) : Expr.Holds (.lit v) v
  | left {op a b vargs list lo hi v} (h : Expr.Holds a v) :
      Expr.Holds (.op op (some a) b vargs list lo hi) v
  | right {op a b vargs list lo hi v} (h : Expr.Holds b v) :
      Expr.Holds (.op op a (some b) vargs list lo hi) v
  | arg {op a b vargs list lo hi e v} (he : e ∈ vargs) (h : Expr.Holds e v) :
      Expr.Holds (.op op a b (some vargs) list lo hi) v
  | item {op a b vargs list lo hi e v} (he : e ∈ list) (h : Expr.Holds e v) :
      Expr.Holds (.op op a b vargs (some list) lo hi) v

/-- The literals of a predicate, its arguments and the values of the row. -/
def usedLits (e : Expr X) : Set Lit :=
  {v | Expr.Holds e v ∨ v ∈ args ∨ ∃ column, lookup column = some v}

variable {sem t scope args lookup}

theorem onColumn_decides {column : String} {verdict : ι → Option Bool} {v u : Lit}
    (hlookup : ∀ w ∈ lookup column, w = v) (hnull : v.isNull = true → predicateTruth u = none)
    (hverdict : lookup column = some v → ∀ rowId ∈ internedValueId t.ids v, v.isNull = false →
      predicateTruth u = verdict rowId) :
    Decides (onColumn t.ids lookup column verdict) (.ok u) := by
  refine ⟨u, rfl, fun truth htruth => ?_⟩
  rw [onColumn] at htruth
  rcases hvalue : lookup column with _ | w <;> simp only [hvalue] at htruth
  · cases htruth
  · obtain rfl := hlookup w hvalue
    split at htruth
    · rename_i hw
      exact (hnull hw).trans (Except.ok.inj htruth)
    · rename_i hw
      rcases hid : internedValueId t.ids w with _ | rowId <;> simp only [hid] at htruth
      · cases htruth
      · exact (hverdict hvalue rowId hid (by simpa using hw)).trans (Except.ok.inj htruth)

theorem compileEq_const {negated : Bool} {column : String} {value : Expr X}
    {plan : InternedPredicatePlan ι} (hplan : compileEq t args negated column value = some plan) :
    ∃ w, exprConstValue args value = some w := by
  rcases hw : exprConstValue args value with _ | w
  · simp only [compileEq, hw] at hplan
    cases hplan
  · exact ⟨w, rfl⟩

variable [DecidableEq ι]

theorem reaches_of_agrees {stop : Bool} (es : List (Expr X)) {plans : List (InternedPredicatePlan ι)}
    (hplans : es.mapM (compileInternedPredicateExpr t args) = some plans)
    (ih : ∀ e ∈ es, ∀ plan, compileInternedPredicateExpr t args e = some plan →
      Agrees sem t scope args lookup e → Decides (evalCompiledInternedPredicate t.ids lookup plan)
        (evalExpr sem scope args e))
    (hagree : AgreesUntil stop (es.map fun e =>
      (Agrees sem t scope args lookup e, evalExpr sem scope args e))) :
    Reaches stop (plans.map (evalCompiledInternedPredicate t.ids lookup))
      (es.map (evalExpr sem scope args)) := by
  induction es generalizing plans with
  | nil =>
    cases hplans
    exact .nil
  | cons e es ihes =>
    rw [List.mapM_cons] at hplans
    obtain ⟨plan, hplan, hplans⟩ := Option.bind_eq_some_iff.mp hplans
    obtain ⟨plans', hplans', hcons⟩ := Option.bind_eq_some_iff.mp hplans
    cases hcons
    obtain ⟨hfirst, hrest⟩ := hagree
    have hdecides := ih e List.mem_cons_self plan hplan hfirst
    have ihes := ihes hplans' fun e' he' => ih e' (List.mem_cons_of_mem _ he')
    rw [List.map_cons, List.map_cons]
    by_cases hstop : (evalExpr sem scope args e).map predicateTruth = .ok (some stop)
    · obtain ⟨v, hv, -⟩ := id hdecides
      rw [hv] at hdecides hstop ⊢
      exact .last hdecides (Except.ok.inj hstop)
    · exact .next hdecides (ihes (hrest hstop))

/-- Literals, those of the arguments and of the row among them, that their identifiers tell
apart. -/
structure Identified (t : InternedTable ι) (args : List Lit) (lookup : String → Option Lit)
    (used : Set Lit) : Prop where
  injOn : Set.InjOn (internedValueId t.ids) {v ∈ used | (internedValueId t.ids v).isSome}
  args : ∀ v ∈ args, v ∈ used
  row : ∀ column v, lookup column = some v → v ∈ used

section Leaves
variable {used : Set Lit} (hused : Identified t args lookup used)
include hused

omit [DecidableEq ι] in
theorem Identified.eq_iff {v w : Lit} {rowId valueId : ι} (hv : v ∈ used) (hw : w ∈ used)
    (hrow : internedValueId t.ids v = some rowId)
    (hvalue : internedValueId t.ids w = some valueId) : v = w ↔ rowId = valueId := by
  constructor
  · rintro rfl
    exact Option.some.inj (hrow.symm.trans hvalue)
  · rintro rfl
    exact hused.injOn ⟨hv, by rw [hrow]; rfl⟩ ⟨hw, by rw [hvalue]; rfl⟩ (hrow.trans hvalue.symm)

omit [DecidableEq ι] in
theorem Identified.const {e : Expr X} {v : Lit} (h : exprConstValue args e = some v)
    (hlits : ∀ v, Expr.Holds e v → v ∈ used) : v ∈ used := by
  cases e with
  | lit lit =>
    obtain rfl := Option.some.inj h
    exact hlits lit (.lit lit)
  | param param => exact hused.args v (List.mem_of_getElem? h)
  | col => cases h
  | op => cases h
  | other => cases h

/-- A comparison of a column with a constant, on either side of the operator. -/
theorem compileEq_decides {negated : Bool} {column : String} {value : Expr X}
    {plan : InternedPredicatePlan ι} {v w : Lit} {order : Ordering}
    (hplan : compileEq t args negated column value = some plan)
    (hvalue : exprConstValue args value = some w) (hlits : ∀ v, Expr.Holds value v → v ∈ used)
    (hlookup : ∀ u ∈ lookup column, u = v)
    (horder : (internedValueId t.ids v).isSome → (internedValueId t.ids w).isSome →
      (order = .eq ↔ v = w)) :
    Decides (evalCompiledInternedPredicate t.ids lookup plan)
      (.ok (if v.isNull || w.isNull then .null
        else .bool (if negated then order != .eq else order == .eq))) := by
  rw [compileEq, hvalue] at hplan
  dsimp only at hplan
  by_cases hw : w.isNull = true
  · rw [if_pos hw] at hplan
    cases hplan
    rw [hw, Bool.or_true, if_pos rfl]
    exact ⟨.null, rfl, fun truth htruth => Except.ok.inj htruth⟩
  · rw [if_neg hw] at hplan
    obtain ⟨valueId, hid, rfl⟩ := Option.map_eq_some_iff.mp hplan
    rw [evalCompiledInternedPredicate]
    refine onColumn_decides hlookup (fun hv => by rw [hv]; rfl) fun hcell rowId hrow hv => ?_
    have hsame : order = .eq ↔ rowId = valueId := by
      rw [horder (Option.isSome_iff_exists.mpr ⟨rowId, hrow⟩)
        (Option.isSome_iff_exists.mpr ⟨valueId, hid⟩)]
      exact hused.eq_iff (hused.row column v hcell) (hused.const hvalue hlits) hrow hid
    rw [hv, Bool.eq_false_iff.mpr hw, Bool.or_false, if_neg Bool.false_ne_true]
    cases negated <;> simp [predicateTruth, hsame, bne, Bool.beq_eq_decide_eq]

theorem compileComparison_decides {op : String} {negated : Bool} {a b : Option (Expr X)}
    {plan : InternedPredicatePlan ι} (hplan : compileComparison t args negated a b = some plan)
    (hlits : ∀ e, e ∈ a ∨ e ∈ b → ∀ v, Expr.Holds e v → v ∈ used)
    (hagree : ComparisonAgrees sem t scope args lookup a b) :
    Decides (evalCompiledInternedPredicate t.ids lookup plan)
      (evalComparison sem.fmt op (fun o => if negated then o != .eq else o == .eq)
        (a.map (evalExpr sem scope args)) (b.map (evalExpr sem scope args))) := by
  obtain ⟨hleft, hright, hvalues⟩ := hagree
  rw [compileComparison] at hplan
  split at hplan
  · rename_i column hcol _
    obtain ⟨ea, rfl, hcol⟩ := Option.bind_eq_some_iff.mp hcol
    obtain ⟨eb, rfl, hplan⟩ := Option.bind_eq_some_iff.mp hplan
    obtain ⟨v, hv, hlookup⟩ := hleft ea rfl column hcol
    obtain ⟨w, hw⟩ := compileEq_const hplan
    have heval : evalExpr sem scope args eb = .ok w := evalExpr_const hw
    rw [Option.map_some, Option.map_some, hv, heval]
    exact compileEq_decides hused hplan hw (hlits eb (.inr rfl)) hlookup
      (hvalues ea rfl eb rfl v w hv heval)
  · rename_i column hleft' hcol
    obtain ⟨eb, rfl, hcol⟩ := Option.bind_eq_some_iff.mp hcol
    obtain ⟨ea, rfl, hplan⟩ := Option.bind_eq_some_iff.mp hplan
    obtain ⟨v, hv, hlookup⟩ := hright eb rfl column hcol
    obtain ⟨w, hw⟩ := compileEq_const hplan
    have heval : evalExpr sem scope args ea = .ok w := evalExpr_const hw
    have horder := hvalues ea rfl eb rfl w v heval hv
    have hdecides := compileEq_decides hused hplan hw (hlits ea (.inl rfl)) hlookup
      fun hsv hsw => (horder hsw hsv).trans eq_comm
    rw [Bool.or_comm] at hdecides
    rw [Option.map_some, Option.map_some, hv, heval]
    exact hdecides
  · cases hplan

theorem internedValueIds_decides (items : List (Expr X)) {valueIds : List ι} {sawNull : Bool}
    {v : Lit} (hids : internedValueIds t args items = some (valueIds, sawNull))
    (hlits : ∀ item ∈ items, ∀ w, Expr.Holds item w → w ∈ used)
    (hagree : ∀ item ∈ items, ∀ w, evalExpr sem scope args item = .ok w → ValuesAgree sem t v w)
    (before : Bool) :
    ∃ u, evalInList sem.fmt v before (items.map (evalExpr sem scope args)) = .ok u ∧
      (v ∈ used → ∀ rowId ∈ internedValueId t.ids v, predicateTruth u =
        if rowId ∈ valueIds then some true else if before || sawNull then none
        else some false) := by
  induction items generalizing valueIds sawNull before with
  | nil =>
    cases hids
    exact ⟨_, rfl, fun _ rowId _ => by cases before <;> rfl⟩
  | cons item items ih =>
    rw [internedValueIds] at hids
    split at hids
    case h_2 => cases hids
    case h_1 w ids sawNull' hw hrest =>
      have heval : evalExpr sem scope args item = .ok w := evalExpr_const hw
      have ih := ih hrest (fun item' hitem' => hlits item' (List.mem_cons_of_mem _ hitem'))
        (fun item' hitem' => hagree item' (List.mem_cons_of_mem _ hitem'))
      rw [List.map_cons, heval, evalInList]
      split at hids
      · rename_i hnull
        cases hids
        rw [if_pos hnull]
        obtain ⟨u, hu, htruth⟩ := ih true
        refine ⟨u, hu, fun hv rowId hrow => ?_⟩
        rw [htruth hv rowId hrow, Bool.true_or, Bool.or_true]
      · rename_i hnull
        obtain ⟨valueId, hid, hpair⟩ := Option.map_eq_some_iff.mp hids
        cases hpair
        rw [if_neg hnull]
        obtain ⟨u, hu, htruth⟩ := ih before
        have hsame : v ∈ used → ∀ rowId ∈ internedValueId t.ids v,
            (cmpLit sem.fmt v w = .eq ↔ rowId = valueId) := by
          intro hv rowId hrow
          rw [hagree item List.mem_cons_self w heval (Option.isSome_iff_exists.mpr ⟨rowId, hrow⟩)
            (Option.isSome_iff_exists.mpr ⟨valueId, hid⟩)]
          exact hused.eq_iff hv (hused.const hw (hlits item List.mem_cons_self)) hrow hid
        by_cases hequal : cmpLit sem.fmt v w = .eq
        · rw [if_pos hequal]
          refine ⟨_, rfl, fun hv rowId hrow => ?_⟩
          rw [(hsame hv rowId hrow).mp hequal, if_pos List.mem_cons_self]
          rfl
        · rw [if_neg hequal]
          refine ⟨u, hu, fun hv rowId hrow => ?_⟩
          have hne : ¬rowId = valueId := fun h => hequal ((hsame hv rowId hrow).mpr h)
          rw [htruth hv rowId hrow]
          simp only [List.mem_cons, hne, false_or]

theorem compileIn_decides {a : Option (Expr X)} {list : Option (List (Expr X))}
    {plan : InternedPredicatePlan ι} (hplan : compileIn t args a list = some plan)
    (hlits : ∀ items ∈ list, ∀ item ∈ items, ∀ v, Expr.Holds item v → v ∈ used)
    (hagree : InAgrees sem t scope args lookup a list) :
    Decides (evalCompiledInternedPredicate t.ids lookup plan)
      (evalIn sem.fmt (a.map (evalExpr sem scope args))
        (list.map (List.map (evalExpr sem scope args)))) := by
  obtain ⟨column, hcol, hplan⟩ := Option.bind_eq_some_iff.mp hplan
  obtain ⟨⟨valueIds, sawNull⟩, hids, hplan⟩ := Option.bind_eq_some_iff.mp hplan
  cases hplan
  obtain ⟨e, rfl, hcol⟩ := Option.bind_eq_some_iff.mp hcol
  obtain ⟨items, rfl, hids⟩ := Option.bind_eq_some_iff.mp hids
  obtain ⟨hcolumn, hvalues⟩ := hagree e rfl
  obtain ⟨v, hv, hlookup⟩ := hcolumn column hcol
  obtain ⟨u, hu, htruth⟩ := internedValueIds_decides hused items hids (hlits items rfl)
    (fun item hitem w hw => hvalues items rfl item hitem v w hv hw) false
  have heval : evalIn sem.fmt ((some e).map (evalExpr sem scope args))
      ((some items).map (List.map (evalExpr sem scope args))) =
      .ok (if v.isNull then .null else u) := by
    rw [Option.map_some, Option.map_some, evalIn, hv]
    by_cases hnull : v.isNull = true
    · rw [if_pos hnull]
      exact if_pos hnull
    · rw [if_neg hnull, ← hu]
      exact if_neg hnull
  rw [heval, evalCompiledInternedPredicate]
  refine onColumn_decides hlookup (fun hnull => by rw [if_pos hnull]; rfl)
    fun hcell rowId hrow hnull => ?_
  rw [if_neg (by rw [hnull]; exact Bool.false_ne_true),
    htruth (hused.row column v hcell) rowId hrow, Bool.false_or]

omit hused in
theorem constant_decides {e : Expr X} {plan : InternedPredicatePlan ι}
    (hplan : (predicateConstantTruth args e).map InternedPredicatePlan.constant = some plan) :
    Decides (evalCompiledInternedPredicate t.ids lookup plan) (evalExpr sem scope args e) := by
  obtain ⟨truth, htruth, rfl⟩ := Option.map_eq_some_iff.mp hplan
  rw [predicateConstantTruth] at htruth
  split at htruth
  · rename_i v hv
    cases htruth
    exact ⟨_, evalExpr_const hv, fun _ h => Except.ok.inj h⟩
  · rename_i hv
    cases htruth
    exact ⟨_, evalExpr_const hv, fun _ h => Except.ok.inj h⟩
  · cases htruth

omit hused [DecidableEq ι] in
theorem mapM_of_allPlans {es : List (Expr X)} {plans : List (InternedPredicatePlan ι)}
    (h : allPlans (es.map (compileInternedPredicateExpr t args)) = some plans) :
    es.mapM (compileInternedPredicateExpr t args) = some plans := by
  rw [allPlans] at h
  split at h
  · cases h
  · rwa [List.mapM_map] at h

omit hused [DecidableEq ι] in
theorem not_decides {p : PlanAnswer} {x : Answer} (h : Decides p x) :
    Decides (p.map fun truth => truth.map (!·)) (evalNot (some x)) := by
  obtain ⟨v, rfl, hp⟩ := h
  refine ⟨negated (predicateTruth v), rfl, fun truth htruth => ?_⟩
  rcases p with _ | t
  · cases htruth
  · cases htruth
    rw [hp t rfl]
    rcases t with _ | b <;> rfl

/-- A plan decides a row as the interpreter does. -/
theorem compile_decides (e : Expr X) {plan : InternedPredicatePlan ι}
    (hplan : compileInternedPredicateExpr t args e = some plan)
    (hlits : ∀ v, Expr.Holds e v → v ∈ used)
    (hagree : Agrees sem t scope args lookup e) :
    Decides (evalCompiledInternedPredicate t.ids lookup plan) (evalExpr sem scope args e) := by
  induction e using Expr.induction generalizing plan with
  | hcol col table => cases hplan
  | hlit lit => exact constant_decides hplan
  | hparam param => exact constant_decides hplan
  | hother x => cases hplan
  | hop op a b vargs list lo hi iha ihb ihargs ihlist =>
    have ih : ∀ e ∈ connected a b vargs, ∀ plan,
        compileInternedPredicateExpr t args e = some plan → Agrees sem t scope args lookup e →
          Decides (evalCompiledInternedPredicate t.ids lookup plan)
            (evalExpr sem scope args e) := by
      intro e he plan
      rcases mem_connected he with h | h | ⟨es, h, hes⟩
      · cases h
        exact fun hplan => iha e rfl hplan fun v hv => hlits v (.left hv)
      · cases h
        exact fun hplan => ihb e rfl hplan fun v hv => hlits v (.right hv)
      · cases h
        exact fun hplan => ihargs es rfl e hes hplan fun v hv => hlits v (.arg hes hv)
    have hoperands : ∀ e, e ∈ a ∨ e ∈ b → ∀ v, Expr.Holds e v → v ∈ used := by
      rintro e (h | h) v hv
      · cases h
        exact hlits v (.left hv)
      · cases h
        exact hlits v (.right hv)
    rw [compile_op] at hplan
    rw [agrees_op] at hagree
    rw [evalExpr, evalOperand_eq, evalOperand_eq, evalOperands_eq, evalOperands_eq]
    unfold compileOp at hplan
    split at hplan
    · obtain ⟨plans, hplans, rfl⟩ := Option.map_eq_some_iff.mp hplan
      have hreach := reaches_of_agrees _ (mapM_of_allPlans hplans) ih hagree
      rw [← connected_map, ← evalPlans_eq] at hreach
      rw [evalCompiledInternedPredicate]
      exact hreach.decides fun _ => rfl
    · obtain ⟨plans, hplans, rfl⟩ := Option.map_eq_some_iff.mp hplan
      have hreach := reaches_of_agrees _ (mapM_of_allPlans hplans) ih hagree
      rw [← connected_map, ← evalPlans_eq] at hreach
      rw [evalCompiledInternedPredicate]
      exact hreach.decides fun _ => rfl
    · obtain ⟨item, hitem, rfl⟩ := Option.map_eq_some_iff.mp hplan
      rcases a with _ | e
      · cases hitem
      · exact not_decides (iha e rfl hitem (fun v hv => hlits v (.left hv)) (hagree _ rfl))
    · exact compileComparison_decides hused hplan hoperands hagree
    · exact compileComparison_decides hused hplan hoperands hagree
    · refine compileIn_decides hused hplan (fun items hitems item hitem v hv => ?_) hagree
      cases hitems
      exact hlits v (.item hitem hv)
    · cases hplan

end Leaves

end Agreement

/-- Where the identifiers tell the used literals apart, and every comparison that the interpreter
reaches finds its column under the given name and takes two values for equal just when they are the
same, a verdict of the plan is that of the interpreter. -/
theorem interned_plan_verdict {X ι : Type} [DecidableEq ι] (sem : Semantics X)
    (t : InternedTable ι) (scope : Scope) (args : List Lit) (lookup : String → Option Lit)
    (e : Expr X) (plan : InternedPredicatePlan ι)
    (hinj : Set.InjOn (internedValueId t.ids)
      {v ∈ usedLits args lookup e | (internedValueId t.ids v).isSome})
    (hplan : compileInternedPredicateExpr t args e = some plan)
    (hagree : Agrees sem t scope args lookup e) (verdict : Bool)
    (hverdict : compiledInternedPredicateMatchesLookup t.ids lookup plan = some verdict) :
    evalPredicate sem scope args e = .ok verdict := by
  have hused : Identified t args lookup (usedLits args lookup e) :=
    ⟨hinj, fun v hv => .inr (.inl hv), fun column v hv => .inr (.inr ⟨column, hv⟩)⟩
  obtain ⟨v, hv, htruth⟩ := compile_decides hused e hplan (fun v hv => .inl hv) hagree
  rw [compiledInternedPredicateMatchesLookup] at hverdict
  rcases hanswer : evalCompiledInternedPredicate t.ids lookup plan with _ | truth
  · rw [hanswer] at hverdict
    cases hverdict
  · rw [hanswer] at hverdict
    cases hverdict
    have heval : evalPredicate sem scope args e = .ok (predicateTruth v == some true) := by
      rw [evalPredicate, hv]
      rfl
    rw [heval, htruth truth hanswer]
    rcases truth with _ | _ | _ <;> rfl

/-- A table with one interned column, whose values are identified by their kind and their text. -/
def sampleInterned : InternedTable (Bool × String) where
  schema := { columns := [⟨"tag", "text", false, false⟩], primaryKey := ["tag"] }
  columnIsInterned column := column == "tag"
  acceptedAliases := []
  ids := {
    cellId := fun
      | .str v => some (false, v)
      | .uuid v => some (true, v)
      | _ => none
    embeddingId := fun _ _ _ => none }

theorem sampleInterned_injOn (used : Set Lit) : Set.InjOn (internedValueId sampleInterned.ids)
    {v ∈ used | (internedValueId sampleInterned.ids v).isSome} := by
  rintro v ⟨-, hv⟩ w ⟨-, hw⟩ heq
  cases v <;> cases hv <;> cases w <;> cases heq <;> rfl

def sampleSemantics : Semantics Empty where
  fmt := { parseF64 := fun _ => none, showF64 := fun _ => "", showJson := fun _ => "" }
  otherOp op _ _ := .error ("unsupported op: " ++ op)
  other x := x.elim

def sampleTag : String := "6f9619ff-8b86-4d01-b42d-00cf4fc964ff"

def sampleRow : RowObject := fun column => if column = "tag" then some (.str sampleTag) else none

def tagIs (value : Lit) : Expr Empty :=
  .op "eq" (some (.col "tag" none)) (some (.lit value)) none none none none

theorem resolve_tag : resolveInternedColumnRef sampleInterned (.col "tag" none : Expr Empty) =
    some "tag" := by
  decide +kernel

theorem compile_tagIs {value : Lit} {id : Bool × String} (hnull : value.isNull = false)
    (hid : internedValueId sampleInterned.ids value = some id) :
    compileInternedPredicateExpr sampleInterned [] (tagIs value) = some (.eq "tag" id false) := by
  have hcompile : compileInternedPredicateExpr sampleInterned [] (tagIs value) =
      compileComparison sampleInterned [] false (some (.col "tag" none : Expr Empty))
        (some (.lit value)) := rfl
  have hother : resolveInternedColumnRef sampleInterned (.lit value : Expr Empty) = none := rfl
  simp only [hcompile, compileComparison, Option.bind_some, resolve_tag, hother, compileEq,
    exprConstValue, hnull, Bool.false_eq_true, if_false, hid, Option.map_some]

theorem interned_plan_verdict_sample :
    evalPredicate sampleSemantics (rowScope sampleRow) [] (tagIs (.str sampleTag)) = .ok true := by
  refine interned_plan_verdict sampleSemantics sampleInterned (rowScope sampleRow) [] sampleRow
    (tagIs (.str sampleTag)) (.eq "tag" (false, sampleTag) false) (sampleInterned_injOn _)
    (compile_tagIs rfl rfl) ?_ true (by decide +kernel)
  refine ⟨?_, ?_, ?_⟩
  · rintro e ⟨⟩ column hcolumn
    obtain rfl : "tag" = column := Option.some.inj (resolve_tag.symm.trans hcolumn)
    exact ⟨.str sampleTag, rfl, fun w hw => (Option.some.inj hw).symm⟩
  · rintro e ⟨⟩ column ⟨⟩
  · rintro ea ⟨⟩ eb ⟨⟩ v w ⟨⟩ ⟨⟩ - -
    exact iff_of_true (by decide +kernel) rfl

/-- A string and a UUID of the same text are equal to the interpreter and not to the plan. -/
theorem interned_plan_differs :
    compileInternedPredicateExpr sampleInterned [] (tagIs (.uuid sampleTag)) =
        some (.eq "tag" (true, sampleTag) false) ∧
      compiledInternedPredicateMatchesLookup sampleInterned.ids sampleRow
        (.eq "tag" (true, sampleTag) false) = some false ∧
      evalPredicate sampleSemantics (rowScope sampleRow) [] (tagIs (.uuid sampleTag)) =
        .ok true :=
  ⟨compile_tagIs rfl rfl, by decide +kernel, by decide +kernel⟩

end SkeinDB.Queries
