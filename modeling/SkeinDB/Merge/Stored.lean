import Mathlib.Data.String.Basic
import SkeinDB.Merge.Rows
import SkeinDB.Tables.Writes

/-!
# Merging stored rows

`skeindb/src/engine.rs`: `merge_apply` merges the row that a table stores with an incoming one by
`merge_rows_with_wasm`. A stored row is a function of its columns, and the merge that `Tables` runs
over them is the one of this directory, column by column and error by error.
-/
namespace SkeinDB.Merge
open SkeinDB.Tables (Json)

section Values

def JsonValue.ofStored : Json → JsonValue Json
  | .array items => .array items
  | .object members => .object members
  | v => .scalar v

def JsonValue.toStored : JsonValue Json → Json
  | .array items => .array items
  | .object members => .object members
  | .scalar v => v

@[simp] theorem JsonValue.toStored_ofStored (v : Json) : (JsonValue.ofStored v).toStored = v := by
  cases v <;> rfl

def Lit.ofStored : Tables.Lit → Lit Float Json
  | .null => .null
  | .bool v => .bool v
  | .i64 v => .i64 v
  | .u64 v => .u64 v
  | .f64 v => .f64 v
  | .dec v => .dec v
  | .str v => .str v
  | .bytes b64 => .bytes b64
  | .json v => .json (.ofStored v)
  | .embedding dims v model => .embedding dims v model
  | .date iso => .date iso
  | .time iso => .time iso
  | .datetime iso => .datetime iso
  | .uuid v => .uuid v

def Lit.toStored : Lit Float Json → Tables.Lit
  | .null => .null
  | .bool v => .bool v
  | .i64 v => .i64 v
  | .u64 v => .u64 v
  | .f64 v => .f64 v
  | .dec v => .dec v
  | .str v => .str v
  | .bytes b64 => .bytes b64
  | .json v => .json v.toStored
  | .embedding dims v model => .embedding dims v model
  | .date iso => .date iso
  | .time iso => .time iso
  | .datetime iso => .datetime iso
  | .uuid v => .uuid v

@[simp] theorem Lit.toStored_ofStored (v : Tables.Lit) : (Lit.ofStored v).toStored = v := by
  cases v with
  | json v => rw [ofStored, toStored, JsonValue.toStored_ofStored]
  | _ => rfl

end Values

section Policies
variable (ops : F64Ops Float)
  (wasm : Lit Float Json → Lit Float Json → MergeFunctionRef → Except String (Lit Float Json))

/-- What a policy makes of two values of a column. -/
def MergePolicySpec.storedValue (policy : MergePolicySpec) (column : String)
    (current incoming : Tables.Lit) : Except String Tables.Lit :=
  (mergeValueWithWasm ops wasm (.ofStored current) (.ofStored incoming)
    (policy.functionFor column)).map Lit.toStored

/-- The values that a row has in some columns. -/
def columnsOf (columns : List String) (row : Tables.RowObject) : RowObject Float Json :=
  columns.filterMap fun column => (row column).map fun v => (column, Lit.ofStored v)

def storedRow (merged : RowObject Float Json) : Tables.RowObject := fun column =>
  (merged.lookup column).map Lit.toStored

/-- The merge of a policy as `merge_apply` takes it, for rows with some columns. -/
def MergePolicySpec.stored (policy : MergePolicySpec) (columns : List String) :
    Tables.MergePolicy where
  merge current incoming := (mergeRowsWithWasm ops wasm policy (columnsOf columns current)
    (columnsOf columns incoming)).map storedRow
  rejects := policy.perColumn.isEmpty &&
    match mergeFnFromRef policy.default with
    | .ok fn => decide (fn = .reject)
    | .error _ => false

/-- A step of the merge of stored rows. -/
def mergeStep (value : String → Tables.Lit → Tables.Lit → Except String Tables.Lit)
    (current incoming merged : Tables.RowObject) (column : String) :
    Except String Tables.RowObject :=
  match current column, incoming column with
  | some c, some i => do return merged.insert column (← value column c i)
  | some c, none => return merged.insert column c
  | none, some i => return merged.insert column i
  | none, none => return merged

theorem mergeRows_eq_foldlM (value : String → Tables.Lit → Tables.Lit → Except String Tables.Lit)
    (columns : List String) (current incoming : Tables.RowObject) :
    Tables.mergeRows value columns current incoming =
      columns.foldlM (mergeStep value current incoming) fun _ => none := by
  rfl

end Policies

section Columns
variable {columns keys : List String} {current incoming row : Tables.RowObject} {column : String}

theorem mem_columnsOf : column ∈ (columnsOf columns row).map Prod.fst ↔
    column ∈ columns ∧ (row column).isSome := by
  simp only [columnsOf, List.mem_map, List.mem_filterMap, Option.map_eq_some_iff,
    Option.isSome_iff_exists]
  constructor
  · rintro ⟨_, ⟨column, hmem, v, hv, rfl⟩, rfl⟩
    exact ⟨hmem, v, hv⟩
  · rintro ⟨hmem, v, hv⟩
    exact ⟨_, ⟨column, hmem, v, hv, rfl⟩, rfl⟩

theorem lookup_columnsOf (row : Tables.RowObject) (hcolumn : column ∈ columns) :
    (columnsOf columns row).lookup column = (row column).map Lit.ofStored := by
  induction columns with
  | nil => cases hcolumn
  | cons first columns ih =>
    have htail : (row first).isNone → (columnsOf (first :: columns) row) = columnsOf columns row := by
      intro hnone
      rw [columnsOf, List.filterMap_cons, Option.isNone_iff_eq_none.mp hnone]
      rfl
    by_cases hfirst : column = first
    · subst hfirst
      rcases hv : row column with _ | v
      · rw [htail (by rw [hv]; rfl), lookup_eq_none]
        · rfl
        · rw [mem_columnsOf, hv]
          simp
      · rw [columnsOf, List.filterMap_cons, hv]
        simp
    · have hcolumn := (List.mem_cons.mp hcolumn).resolve_left hfirst
      rcases hv : row first with _ | v
      · rw [htail (by rw [hv]; rfl), ih hcolumn]
      · rw [columnsOf, List.filterMap_cons, hv]
        simp only [Option.map_some, List.lookup_cons, beq_eq_false_iff_ne.mpr hfirst]
        exact ih hcolumn

/-- The columns that one of two rows has. -/
def present (current incoming : Tables.RowObject) (column : String) : Bool :=
  (current column).isSome || (incoming column).isSome

/-- The columns that `merge_rows_with_wasm` sorts and goes through. -/
theorem mergeKeys_columnsOf (hsorted : columns.Pairwise (· < ·)) :
    (((columnsOf columns current ++ columnsOf columns incoming).map Prod.fst).mergeSort
      (· ≤ ·)).dedup = columns.filter (present current incoming) := by
  have hmem : ∀ c, c ∈ (((columnsOf columns current ++ columnsOf columns incoming).map
      Prod.fst).mergeSort (· ≤ ·)).dedup ↔ c ∈ columns.filter (present current incoming) := by
    intro c
    rw [List.mem_dedup, (List.mergeSort_perm _ _).mem_iff, List.map_append, List.mem_append,
      mem_columnsOf, mem_columnsOf, List.mem_filter, present, Bool.or_eq_true]
    tauto
  have hfilter := hsorted.filter (present current incoming)
  refine ((List.perm_ext_iff_of_nodup (List.nodup_dedup _) (hfilter.imp ne_of_lt)).mpr
    hmem).eq_of_sortedLE ?_ (hfilter.imp le_of_lt).sortedLE
  refine List.Pairwise.sortedLE (List.Pairwise.sublist (List.dedup_sublist _) ?_)
  exact List.pairwise_mergeSort' (· ≤ ·) _

end Columns

section Merging
variable (ops : F64Ops Float)
  (wasm : Lit Float Json → Lit Float Json → MergeFunctionRef → Except String (Lit Float Json))
  (policy : MergePolicySpec) {columns keys : List String}
  (current incoming : Tables.RowObject)

variable {ops wasm policy} in
theorem mergeColumns_absent {current incoming merged : RowObject Float Json} {column : String}
    (h : mergeColumns ops wasm policy current incoming keys = .ok merged) (hcolumn : column ∉ keys) :
    merged.lookup column = none := by
  induction keys generalizing merged with
  | nil =>
    cases h
    rfl
  | cons key keys ih =>
    obtain ⟨hkey, hcolumn⟩ := not_or.mp (mt List.mem_cons.mpr hcolumn)
    have hcons : ∀ v rest, mergeColumns ops wasm policy current incoming keys = .ok rest →
        ((key, v) :: rest).lookup column = none := by
      intro v rest hrest
      rw [List.lookup_cons, beq_eq_false_iff_ne.mpr hkey]
      exact ih hrest hcolumn
    rw [mergeColumns] at h
    split at h
    · obtain ⟨v, -, h⟩ := Format.bind_eq_ok h
      obtain ⟨rest, hrest, h⟩ := Format.bind_eq_ok h
      cases h
      exact hcons v rest hrest
    · obtain ⟨rest, hrest, h⟩ := Format.bind_eq_ok h
      cases h
      exact hcons _ rest hrest
    · obtain ⟨rest, hrest, h⟩ := Format.bind_eq_ok h
      cases h
      exact hcons _ rest hrest
    · exact ih h hcolumn

/-- Where the row before has no column of the rest, the value of a column goes in front. -/
theorem storedRow_cons {column : String} {v : Lit Float Json} {merged : RowObject Float Json}
    (hmerged : merged.lookup column = none) (row : Tables.RowObject) :
    (fun c => (storedRow merged c).or (row.insert column v.toStored c)) =
      fun c => (storedRow ((column, v) :: merged) c).or (row c) := by
  funext c
  rw [storedRow, storedRow, List.lookup_cons]
  by_cases hc : c = column
  · subst hc
    rw [hmerged, Tables.RowObject.insert, Function.update_self]
    simp
  · rw [beq_eq_false_iff_ne.mpr hc, Tables.RowObject.insert, Function.update_of_ne hc]

theorem mergeColumns_columnsOf (hkeys : ∀ key ∈ keys, key ∈ columns) (hnodup : keys.Nodup)
    (row : Tables.RowObject) :
    keys.foldlM (mergeStep (policy.storedValue ops wasm) current incoming) row =
      (mergeColumns ops wasm policy (columnsOf columns current) (columnsOf columns incoming)
        keys).map fun merged column => (storedRow merged column).or (row column) := by
  induction keys generalizing row with
  | nil => rfl
  | cons key keys ih =>
    obtain ⟨hkey, hnodup⟩ := List.nodup_cons.mp hnodup
    have ih := ih (fun key hkey => hkeys key (List.mem_cons_of_mem _ hkey)) hnodup
    have hcurrent := lookup_columnsOf current (hkeys key List.mem_cons_self)
    have hincoming := lookup_columnsOf incoming (hkeys key List.mem_cons_self)
    -- a value that is settled goes in front of what the other columns come to
    have hput : ∀ v : Lit Float Json,
        keys.foldlM (mergeStep (policy.storedValue ops wasm) current incoming)
          (row.insert key v.toStored) =
        (do
          let merged ← mergeColumns ops wasm policy (columnsOf columns current)
            (columnsOf columns incoming) keys
          return (key, v) :: merged : Except String (RowObject Float Json)).map
            fun merged column => (storedRow merged column).or (row column) := by
      intro v
      rw [ih]
      rcases hmerged : mergeColumns ops wasm policy (columnsOf columns current)
        (columnsOf columns incoming) keys with e | merged
      · rfl
      · exact congrArg Except.ok (storedRow_cons (mergeColumns_absent hmerged hkey) row)
    rw [List.foldlM_cons, mergeStep, mergeColumns, hcurrent, hincoming]
    rcases hc : current key with _ | c <;> rcases hi : incoming key with _ | i
    · exact ih row
    · have hput := hput (.ofStored i)
      rw [Lit.toStored_ofStored] at hput
      exact hput
    · have hput := hput (.ofStored c)
      rw [Lit.toStored_ofStored] at hput
      exact hput
    · simp only [Option.map_some, MergePolicySpec.storedValue]
      rcases mergeValueWithWasm ops wasm (.ofStored c) (.ofStored i) (policy.functionFor key) with
        e | v
      · rfl
      · exact hput v

/-- The merge of two stored rows is the one of their columns. -/
theorem stored_merge (hsorted : columns.Pairwise (· < ·)) :
    (policy.stored ops wasm columns).merge current incoming =
      Tables.mergeRows (policy.storedValue ops wasm) columns current incoming := by
  have hstep : mergeStep (policy.storedValue ops wasm) current incoming =
      fun merged column => if present current incoming column then
        mergeStep (policy.storedValue ops wasm) current incoming merged column
      else pure merged := by
    funext merged column
    split_ifs with hpresent
    · rfl
    · obtain ⟨hcurrent, hincoming⟩ := by simpa [present] using hpresent
      rw [mergeStep, hcurrent, hincoming]
  rw [mergeRows_eq_foldlM, hstep, ← List.foldlM_filter, mergeColumns_columnsOf ops wasm policy
    current incoming (fun key hkey => List.mem_of_mem_filter hkey)
    ((hsorted.filter _).imp ne_of_lt), ← mergeKeys_columnsOf hsorted]
  simp only [Option.or_none]
  rfl

/-- The merges that `merge_apply` runs go by the columns. -/
theorem byColumn_stored (hsorted : columns.Pairwise (· < ·)) {m : Tables.MergeApplyParams}
    (hpolicy : m.policy = .ok (policy.stored ops wasm columns))
    (hincoming : ∀ column, (m.incoming column).isSome → column ∈ columns) : m.ByColumn := by
  intro applied happlied
  obtain rfl := Except.ok.inj (hpolicy.symm.trans happlied)
  refine ⟨policy.storedValue ops wasm, columns, ?_, hincoming⟩
  funext current incoming
  exact stored_merge ops wasm policy current incoming hsorted

end Merging
end SkeinDB.Merge
