import Mathlib.Data.List.Dedup
import Mathlib.Tactic

/-!
# Merging rows

`skeindb/src/engine.rs`: `merge_rows_with_wasm` merges two rows column by column with the functions
of a policy. A built-in function that does not operate on the kinds of the two values leaves the
incoming value.
-/
namespace SkeinDB.Merge

/-- The operations on `f64` that merging uses: the conversion of an integer, which rounds it, sums,
`f64::max`, `f64::min` and the parser. -/
structure F64Ops (F : Type) where
  ofInt : ℤ → F
  add : F → F → F
  max : F → F → F
  min : F → F → F
  parse : String → Option F

/-- Rounding keeps the order of integers, and of two numbers `max` is the greater one and `min` the
smaller one. -/
structure F64Ops.Monotone {F : Type} (ops : F64Ops F) : Prop where
  max_ofInt : ∀ x y, ops.max (ops.ofInt x) (ops.ofInt y) = ops.ofInt (Max.max x y)
  min_ofInt : ∀ x y, ops.min (ops.ofInt x) (ops.ofInt y) = ops.ofInt (Min.min x y)

/-- A JSON value by its outermost kind. -/
inductive JsonValue (J : Type)
  | array (items : List J)
  | object (members : List (String × J))
  | scalar (v : J)

/-- A typed literal; the built-in functions do not look into the last kinds. -/
inductive Lit (F J : Type)
  | null
  | bool (v : Bool)
  | i64 (v : ℤ)
  | u64 (v : ℕ)
  | f64 (v : F)
  | dec (v : String)
  | str (v : String)
  | json (v : JsonValue J)
  | bytes (b64 : String)
  | date (iso : String)
  | time (iso : String)
  | datetime (iso : String)
  | uuid (v : String)
  | embedding (dims : ℕ) (v : List Float32) (model : Option String)

inductive MergeFn
  | lastWriteWins
  | reject
  | max
  | min
  | sum
  | concat
  | setUnion
  | objectMerge
  deriving DecidableEq, Repr

structure MergeFunctionRef where
  kind : String
  name : String
  module : Option String := none
  deriving DecidableEq, Repr

structure MergePolicySpec where
  default : MergeFunctionRef
  perColumn : List (String × MergeFunctionRef) := []

/-- The columns of a row, each once. -/
abbrev RowObject (F J : Type) := List (String × Lit F J)

section Functions
variable {F J : Type} (ops : F64Ops F)

def litToF64 : Lit F J → Option F
  | .bool v => some (ops.ofInt (if v then 1 else 0))
  | .i64 v => some (ops.ofInt v)
  | .u64 v => some (ops.ofInt v)
  | .f64 v => some v
  | .dec v => ops.parse v
  | .str v => ops.parse v
  | _ => none

/-- `merge_numeric_max`, `merge_numeric_min` and `merge_numeric_sum`: integers of one kind are
merged exactly, other numbers as floats. -/
def mergeNumeric (i64 : ℤ → ℤ → ℤ) (u64 : ℕ → ℕ → ℕ) (f64 : F → F → F) :
    Lit F J → Lit F J → Option (Lit F J)
  | .i64 x, .i64 y => some (.i64 (i64 x y))
  | .u64 x, .u64 y => some (.u64 (u64 x y))
  | .f64 x, .f64 y => some (.f64 (f64 x y))
  | a, b =>
    match litToF64 ops a, litToF64 ops b with
    | some x, some y => some (.f64 (f64 x y))
    | _, _ => none

def mergeNumericMax : Lit F J → Lit F J → Option (Lit F J) := mergeNumeric ops max max ops.max

def mergeNumericMin : Lit F J → Lit F J → Option (Lit F J) := mergeNumeric ops min min ops.min

def mergeNumericSum : Lit F J → Lit F J → Option (Lit F J) :=
  mergeNumeric ops (fun x y => max (-2 ^ 63) (min (x + y) (2 ^ 63 - 1)))
    (fun x y => min (x + y) (2 ^ 64 - 1)) ops.add

def mergeConcat : Lit F J → Lit F J → Option (Lit F J)
  | .str x, .str y => some (.str (x ++ y))
  | .json (.array x), .json (.array y) => some (.json (.array (x ++ y)))
  | _, _ => none

variable [BEq J]

/-- The loop of `merge_set_union`. -/
def unionLoop (out items : List J) : List J :=
  items.foldl (fun out item => if out.contains item then out else out ++ [item]) out

def mergeSetUnion : Lit F J → Lit F J → Option (Lit F J)
  | .json (.array x), .json (.array y) => some (.json (.array (unionLoop x y)))
  | _, _ => none

/-- `Map::insert` of a map in the order of its keys. -/
def insertMember (key : String) (v : J) : List (String × J) → List (String × J)
  | [] => [(key, v)]
  | (k, w) :: members =>
    if key = k then (k, v) :: members
    else if key < k then (key, v) :: (k, w) :: members
    else (k, w) :: insertMember key v members

def mergeObjectMerge : Lit F J → Lit F J → Option (Lit F J)
  | .json (.object x), .json (.object y) =>
    some (.json (.object (y.foldl (fun out member => insertMember member.1 member.2 out) x)))
  | _, _ => none

def mergeFnFromRef (func : MergeFunctionRef) : Except String MergeFn :=
  if func.kind ≠ "builtin" then .error "invalid_request: merge function kind not supported"
  else match func.name with
    | "last_write_wins" | "replace" => .ok .lastWriteWins
    | "max" => .ok .max
    | "min" => .ok .min
    | "sum" => .ok .sum
    | "concat" => .ok .concat
    | "set_union" => .ok .setUnion
    | "object_merge" => .ok .objectMerge
    | "reject" => .ok .reject
    | _ => .error "invalid_request: unknown merge function"

/-- What a built-in function leaves of the current and the incoming value. -/
def mergeBuiltin (fn : MergeFn) (current incoming : Lit F J) : Lit F J :=
  let out := match fn with
    | .lastWriteWins => some incoming
    | .reject => some current
    | .max => mergeNumericMax ops current incoming
    | .min => mergeNumericMin ops current incoming
    | .sum => mergeNumericSum ops current incoming
    | .concat => mergeConcat current incoming
    | .setUnion => mergeSetUnion current incoming
    | .objectMerge => mergeObjectMerge current incoming
  out.getD incoming

variable (wasm : Lit F J → Lit F J → MergeFunctionRef → Except String (Lit F J))

def mergeValueWithWasm (current incoming : Lit F J) (func : MergeFunctionRef) :
    Except String (Lit F J) :=
  if func.kind = "wasm" then wasm current incoming func
  else (mergeFnFromRef func).map fun fn => mergeBuiltin ops fn current incoming

def MergePolicySpec.functionFor (policy : MergePolicySpec) (key : String) : MergeFunctionRef :=
  (policy.perColumn.lookup key).getD policy.default

/-- The loop of `merge_rows_with_wasm` over the columns of the two rows. -/
def mergeColumns (policy : MergePolicySpec) (current incoming : RowObject F J) :
    List String → Except String (RowObject F J)
  | [] => .ok []
  | key :: keys =>
    match current.lookup key, incoming.lookup key with
    | some c, some i => do
      let v ← mergeValueWithWasm ops wasm c i (policy.functionFor key)
      let merged ← mergeColumns policy current incoming keys
      return (key, v) :: merged
    | some v, none | none, some v => do
      let merged ← mergeColumns policy current incoming keys
      return (key, v) :: merged
    | none, none => mergeColumns policy current incoming keys

def mergeRowsWithWasm (policy : MergePolicySpec) (current incoming : RowObject F J) :
    Except String (RowObject F J) :=
  mergeColumns ops wasm policy current incoming
    (((current ++ incoming).map Prod.fst).mergeSort (· ≤ ·)).dedup

end Functions

theorem lookup_eq_none {β : Type} {row : List (String × β)} {key : String}
    (h : key ∉ row.map Prod.fst) : row.lookup key = none := by
  rw [List.lookup_eq_none_iff]
  intro member hmember
  rw [bne_iff_ne]
  rintro rfl
  exact h (List.mem_map_of_mem hmember)

section Columns
variable {F J : Type} {ops : F64Ops F} [BEq J]
  {wasm : Lit F J → Lit F J → MergeFunctionRef → Except String (Lit F J)}
  {policy : MergePolicySpec} {fn : String → MergeFn} {current incoming : RowObject F J}
  (hfn : ∀ key, mergeFnFromRef (policy.functionFor key) = .ok (fn key))
include hfn

theorem mergeValueWithWasm_eq (key : String) (c i : Lit F J) :
    mergeValueWithWasm ops wasm c i (policy.functionFor key) =
      .ok (mergeBuiltin ops (fn key) c i) := by
  have hkind : (policy.functionFor key).kind ≠ "wasm" := by
    intro hwasm
    have h := hfn key
    rw [mergeFnFromRef, if_pos (by rw [hwasm]; decide)] at h
    cases h
  rw [mergeValueWithWasm, if_neg hkind, hfn key]
  rfl

variable (ops wasm current incoming)

/-- Under built-in functions a merged column depends on the two values of the column alone. -/
theorem mergeColumns_ok (keys : List String) :
    ∃ merged, mergeColumns ops wasm policy current incoming keys = .ok merged ∧
      ∀ key, merged.lookup key = if key ∈ keys then
        Option.merge (mergeBuiltin ops (fn key)) (current.lookup key) (incoming.lookup key)
      else none := by
  induction keys with
  | nil => exact ⟨[], rfl, fun key => (if_neg List.not_mem_nil).symm⟩
  | cons key keys ih =>
    obtain ⟨merged, hmerged, hlookup⟩ := ih
    have hcons : ∀ v, Option.merge (mergeBuiltin ops (fn key)) (current.lookup key)
        (incoming.lookup key) = some v → ∀ k, ((key, v) :: merged).lookup k =
          if k ∈ key :: keys then
            Option.merge (mergeBuiltin ops (fn k)) (current.lookup k) (incoming.lookup k)
          else none := by
      intro v hv k
      rw [List.lookup_cons, hlookup]
      by_cases hk : k = key
      · rw [hk, if_pos List.mem_cons_self, hv]
        simp
      · simp only [beq_eq_false_iff_ne.mpr hk, List.mem_cons, hk, false_or]
    rw [mergeColumns]
    split
    · rename_i c i hc hi
      rw [mergeValueWithWasm_eq hfn, hmerged]
      exact ⟨_, rfl, hcons _ (by rw [hc, hi]; rfl)⟩
    · rename_i v hc hi
      rw [hmerged]
      exact ⟨_, rfl, hcons _ (by rw [hc, hi]; rfl)⟩
    · rename_i v hc hi
      rw [hmerged]
      exact ⟨_, rfl, hcons _ (by rw [hc, hi]; rfl)⟩
    · rename_i hc hi
      refine ⟨merged, hmerged, fun k => ?_⟩
      rw [hlookup]
      by_cases hk : k = key
      · rw [hk, hc, hi, if_pos List.mem_cons_self]
        split_ifs <;> rfl
      · simp only [List.mem_cons, hk, false_or]

theorem mergeRowsWithWasm_ok :
    ∃ merged, mergeRowsWithWasm ops wasm policy current incoming = .ok merged ∧
      ∀ key, merged.lookup key =
        Option.merge (mergeBuiltin ops (fn key)) (current.lookup key) (incoming.lookup key) := by
  obtain ⟨merged, hmerged, hlookup⟩ := mergeColumns_ok ops wasm current incoming hfn
    (((current ++ incoming).map Prod.fst).mergeSort (· ≤ ·)).dedup
  refine ⟨merged, hmerged, fun key => ?_⟩
  rw [hlookup]
  split_ifs with hmem
  · rfl
  · rw [List.mem_dedup, (List.mergeSort_perm _ _).mem_iff, List.map_append, List.mem_append,
      not_or] at hmem
    rw [lookup_eq_none hmem.1, lookup_eq_none hmem.2]
    rfl

end Columns

end SkeinDB.Merge
