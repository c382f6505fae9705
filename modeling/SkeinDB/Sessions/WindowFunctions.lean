import Mathlib.Data.List.Induction
import SkeinDB.Search.Comparison
import SkeinDB.Sessions.BinaryRows

/-!
# Window functions

`skeindb/src/server.rs`: a query with window functions runs without them first. For each window
function the rows are then sorted by its order column, and one pass over all rows numbers them with
a state for each partition. `Numbered` says what the numbers are for.
-/
namespace SkeinDB.Sessions
open SkeinDB.Search SkeinDB.Tables

inductive WindowFunctionKind
  | rowNumber
  | rank
  | denseRank
  deriving DecidableEq, Repr

structure WindowFunctionSpec where
  kind : WindowFunctionKind
  aliasName : String
  partitionCol : Option String
  orderCol : Option String
  orderDesc : Bool
  deriving DecidableEq, Repr

abbrev ResultRow := List (Option String)

section Ordering
variable (fmt : Formats)

def numericValue (raw : String) : Option Float :=
  match parseI64 raw with
  | some value => some (.ofInt value)
  | none => fmt.parseF64 raw

def mysqlTextOrdering : (left right : Option String) → Ordering
  | none, none => .eq
  | none, some _ => .lt
  | some _, none => .gt
  | some lhs, some rhs => compare lhs rhs

def mysqlNumericTextOrdering : (left right : Option String) → Option Ordering
  | none, none => some .eq
  | none, some _ => some .lt
  | some _, none => some .gt
  | some lhs, some rhs =>
    (numericValue fmt lhs).bind fun lhs => (numericValue fmt rhs).bind fun rhs => partialCmp lhs rhs

def mysqlAggregateValueOrdering (left right : String) : Ordering :=
  (mysqlNumericTextOrdering fmt (some left) (some right)).getD
    (mysqlTextOrdering (some left) (some right))

/-- The comparison of two cells of the order column. -/
def orderOrdering (desc : Bool) (a b : Option String) : Ordering :=
  let cmp := mysqlAggregateValueOrdering fmt (a.getD "") (b.getD "")
  if desc then cmp.swap else cmp

end Ordering

section Definitions

/-- `idx.and_then(|idx| row.get(idx).and_then(|v| v.clone()))`. -/
def cellOf (idx : Option ℕ) (row : ResultRow) : Option String := idx.bind fun i => row[i]?.join

def columnIdx (columns : List String) (name : Option String) : Option ℕ :=
  name.bind fun name => columns.findIdx? (eqIgnoreAsciiCase · name)

variable {Row : Type} (key : Row → String) (order : Row → Option String)

def showNumber (n : ℕ) : Option String := some (toString n)

def rowNumberStep (s : (String → ℕ) × List (Option String)) (row : Row) :
    (String → ℕ) × List (Option String) :=
  let counter := s.1 (key row) + 1
  (Function.update s.1 (key row) counter, s.2 ++ [showNumber counter])

/-- The position within the partition, and the last value of the order column there. -/
abbrev PartitionState := String → ℕ × Option String

def rankStep (s : ℕ × PartitionState × List (Option String)) (row : Row) :
    ℕ × PartitionState × List (Option String) :=
  let (i, states, values) := s
  let position := (states (key row)).1 + 1
  if (states (key row)).2 ≠ order row ∨ i = 0 then
    (i + 1, Function.update states (key row) (position, order row),
      values ++ [showNumber position])
  else
    (i + 1, Function.update states (key row) (position, (states (key row)).2),
      values ++ [values.getLast?.getD (some "1")])

def denseRankStep (s : PartitionState × List (Option String)) (row : Row) :
    PartitionState × List (Option String) :=
  let state := s.1 (key row)
  let state := if state.2 ≠ order row then (state.1 + 1, order row) else state
  (Function.update s.1 (key row) state, s.2 ++ [showNumber state.1])

def windowValues (rows : List Row) : WindowFunctionKind → List (Option String)
  | .rowNumber => (rows.foldl (rowNumberStep key) (fun _ => 0, [])).2
  | .rank => (rows.foldl (rankStep key order) (0, fun _ => (0, none), [])).2.2
  | .denseRank => (rows.foldl (denseRankStep key order) (fun _ => (0, none), [])).2

end Definitions

section Query
variable (fmt : Formats) (columns : List String)

/-- The rows in the order in which a window function numbers them. -/
def sortRows (spec : WindowFunctionSpec) (rows : List ResultRow) : List ResultRow :=
  match columnIdx columns spec.orderCol with
  | none => rows
  | some idx =>
    rows.mergeSort fun a b =>
      orderOrdering fmt spec.orderDesc (cellOf (some idx) a) (cellOf (some idx) b) != .gt

def windowStep (rows : List ResultRow) (spec : WindowFunctionSpec) : List ResultRow :=
  let orderColIdx := columnIdx columns spec.orderCol
  let partitionColIdx := columnIdx columns spec.partitionCol
  let augmentedRows := sortRows fmt columns spec rows
  let values := windowValues (fun row => (cellOf partitionColIdx row).getD "")
    (cellOf orderColIdx) augmentedRows spec.kind
  augmentedRows.zipWith (fun row value => row ++ [value]) values

def mysqlTryWindowFunctionQuery (rows : List ResultRow) (windowSpecs : List WindowFunctionSpec) :
    List String × List ResultRow :=
  let columns := columns ++ windowSpecs.map WindowFunctionSpec.aliasName
  (columns, windowSpecs.foldl (windowStep fmt columns) rows)

end Query

section Specification
variable (fmt : Formats) (desc : Bool)

/-- Where a row stands for one window function. -/
structure WindowPlace where
  partition : Option String
  order : Option String
  deriving DecidableEq

structure WindowCell extends WindowPlace where
  value : Option String
  deriving DecidableEq

/-- The rows of the partition of `p` that come strictly before it. -/
def before (places : Multiset WindowPlace) (p : WindowPlace) : Multiset WindowPlace :=
  places.filter fun q => q.partition = p.partition ∧ orderOrdering fmt desc q.order p.order = .lt

/-- The values of the order column that compare as equal to the one of `p`. -/
def peers (places : Multiset WindowPlace) (p : WindowPlace) : Multiset (Option String) :=
  (places.map WindowPlace.order).filter fun value => orderOrdering fmt desc p.order value = .eq

def rankOf (places : Multiset WindowPlace) (p : WindowPlace) : ℕ :=
  1 + (before fmt desc places p).card

def denseRankOf (places : Multiset WindowPlace) (p : WindowPlace) : ℕ :=
  1 + ((before fmt desc places p).map (peers fmt desc places)).toFinset.card

def NumberedBy (cells : Multiset WindowCell) : WindowFunctionKind → Prop
  | .rowNumber => ∀ c ∈ cells,
    let partition := cells.filter fun d => d.partition = c.partition
    partition.map WindowCell.value =
        (Multiset.range partition.card).map (fun n => showNumber (n + 1)) ∧
      ∀ d ∈ partition, orderOrdering fmt desc c.order d.order = .lt →
        ∃ m n, c.value = showNumber m ∧ d.value = showNumber n ∧ m < n
  | .rank => ∀ c ∈ cells,
    c.value = showNumber (rankOf fmt desc (cells.map WindowCell.toWindowPlace) c.toWindowPlace)
  | .denseRank => ∀ c ∈ cells, c.value =
    showNumber (denseRankOf fmt desc (cells.map WindowCell.toWindowPlace) c.toWindowPlace)

/-- The values of the order column can be sorted, and the numbers are as the function has them. -/
structure Numbered (kind : WindowFunctionKind) (cells : Multiset WindowCell) : Prop where
  consistent : ConsistentOn (orderOrdering fmt desc) {v | ∃ c ∈ cells, c.order = v}
  numbers : NumberedBy fmt desc cells kind

def placeOf (columns : List String) (spec : WindowFunctionSpec) (row : ResultRow) : WindowPlace :=
  ⟨cellOf (columnIdx columns spec.partitionCol) row, cellOf (columnIdx columns spec.orderCol) row⟩

def windowCells (columns : List String) (spec : WindowFunctionSpec) (valueIdx : ℕ)
    (rows : List ResultRow) : Multiset WindowCell :=
  rows.map fun row => (⟨placeOf columns spec row, cellOf (some valueIdx) row⟩ : WindowCell)

end Specification

section Conditions
variable (fmt : Formats) (desc : Bool)

/-- What the pass takes for the partition. -/
def WindowPlace.key (p : WindowPlace) : String := p.partition.getD ""

def lastInPartition (seen : List WindowPlace) (p : WindowPlace) : Option WindowPlace :=
  (seen.filter fun q => q.key = p.key).getLast?

/-- No row without a partition stands beside one with an empty text for it. -/
def Separate (places : List WindowPlace) : Prop :=
  ∀ p ∈ places, ∀ q ∈ places, p.key = q.key → p.partition = q.partition

/-- A value other than the last one of the partition is behind all rows of the partition so far,
and the same value follows a row of the same rank, in whatever partition. -/
def RankFits (places seen : List WindowPlace) (p : WindowPlace) : Prop :=
  if (lastInPartition seen p).bind WindowPlace.order ≠ p.order ∨ seen = [] then
    ∀ q ∈ seen, q.key = p.key →
      q.partition = p.partition ∧ orderOrdering fmt desc q.order p.order = .lt
  else ∀ q ∈ seen.getLast?, rankOf fmt desc places q = rankOf fmt desc places p

instance (places seen : List WindowPlace) (p : WindowPlace) :
    Decidable (RankFits fmt desc places seen p) :=
  inferInstanceAs (Decidable (if (lastInPartition seen p).bind WindowPlace.order ≠ p.order ∨
    seen = [] then ∀ q ∈ seen, q.key = p.key →
      q.partition = p.partition ∧ orderOrdering fmt desc q.order p.order = .lt
    else ∀ q ∈ seen.getLast?, rankOf fmt desc places q = rankOf fmt desc places p))

/-- The first value of a partition is there, and of two that follow each other in a partition, the
second one is the same text or strictly behind the first. -/
def DenseRankFits (places seen : List WindowPlace) (p : WindowPlace) : Prop :=
  match lastInPartition seen p with
  | none => p.order ≠ none
  | some q =>
    if q.partition = p.partition then
      q.order ≠ p.order → orderOrdering fmt desc q.order p.order = .lt
    else denseRankOf fmt desc places p =
      denseRankOf fmt desc places q + if q.order = p.order then 0 else 1

/-- A relation between each value of a list and the ones before it. -/
def EachAfter {α : Type} (fits : List α → α → Prop) (l : List α) : Prop :=
  ∀ seen p rest, l = seen ++ p :: rest → fits seen p

def PassFits (places : List WindowPlace) : WindowFunctionKind → Prop
  | .rowNumber => Separate places
  | .rank => EachAfter (RankFits fmt desc places) places
  | .denseRank => EachAfter (DenseRankFits fmt desc places) places

/-- What a window function needs of the rows it is computed on. -/
structure WindowFits (columns : List String) (spec : WindowFunctionSpec) (rows : List ResultRow) :
    Prop where
  consistent : ConsistentOn (orderOrdering fmt spec.orderDesc)
    {v | ∃ row ∈ rows, (placeOf columns spec row).order = v}
  pass : PassFits fmt spec.orderDesc
    ((sortRows fmt columns spec rows).map (placeOf columns spec)) spec.kind

end Conditions

section Passes

theorem showNumber_inj {m n : ℕ} : showNumber m = showNumber n ↔ m = n := by
  refine ⟨fun h => ?_, congrArg showNumber⟩
  have hdigits : Nat.toDigits 10 m = Nat.toDigits 10 n := by
    rw [← Nat.toList_repr, ← Nat.toList_repr]
    exact congrArg String.toList (Option.some.inj h)
  rw [← Nat.ofDigitChars_ten_toDigits (n := m), hdigits, Nat.ofDigitChars_ten_toDigits]

theorem eachAfter_concat {α : Type} {fits : List α → α → Prop} {l : List α} {p : α} :
    EachAfter fits (l ++ [p]) ↔ EachAfter fits l ∧ fits l p := by
  constructor
  · intro h
    refine ⟨fun seen q rest hl => h seen q (rest ++ [p]) (by simp [hl]), h l p [] rfl⟩
  · rintro ⟨h, hp⟩ seen q rest hl
    rcases rest.eq_nil_or_concat with rfl | ⟨rest', r, rfl⟩
    · obtain ⟨rfl, hq⟩ := List.append_inj' hl rfl
      rwa [← List.singleton_inj.mp hq]
    · have hconcat : l ++ [p] = (seen ++ q :: rest') ++ [r] := by simpa using hl
      exact h seen q rest' (List.append_inj' hconcat rfl).1

/-- A pass that appends one value for each row is right when each value is, given that the ones
before it are. -/
theorem values_right_iff {α β : Type} (values : List α → List β) (right : α → β)
    {fits : List α → α → Prop} {l : List α} (hnil : values [] = [])
    (hstep : EachAfter (fun seen p => ∃ v, values (seen ++ [p]) = values seen ++ [v] ∧
      (values seen = seen.map right → (v = right p ↔ fits seen p))) l) :
    values l = l.map right ↔ EachAfter fits l := by
  induction l using List.reverseRecOn with
  | nil => simp [hnil, EachAfter]
  | append_singleton l p ih =>
    obtain ⟨hstep, v, hv, hright⟩ := eachAfter_concat.mp hstep
    rw [eachAfter_concat, ← ih hstep, hv, List.map_append, List.map_singleton]
    constructor
    · intro h
      obtain ⟨hvalues, hlast⟩ := List.append_inj' h rfl
      exact ⟨hvalues, (hright hvalues).mp (List.singleton_inj.mp hlast)⟩
    · rintro ⟨hvalues, hfits⟩
      rw [hvalues, (hright hvalues).mpr hfits]

variable {Row : Type} (key : Row → String) (order : Row → Option String)

theorem rowNumber_pass (l : List Row) :
    (∀ k, (l.foldl (rowNumberStep key) (fun _ => 0, [])).1 k = l.countP fun r => key r = k) ∧
      ∀ p, windowValues key order (l ++ [p]) .rowNumber =
        windowValues key order l .rowNumber ++
          [showNumber ((l.countP fun r => key r = key p) + 1)] := by
  have hcount : ∀ k, (l.foldl (rowNumberStep key) (fun _ => 0, [])).1 k =
      l.countP fun r => key r = k := by
    induction l using List.reverseRecOn with
    | nil => exact fun _ => rfl
    | append_singleton l p ih =>
      intro k
      rw [List.foldl_append, List.countP_append, ← ih]
      change Function.update _ _ _ _ = _
      by_cases hk : k = key p
      · simp [hk, ih]
      · simp [Function.update_of_ne hk, Ne.symm hk]
  refine ⟨hcount, fun p => ?_⟩
  rw [windowValues, List.foldl_append, ← hcount]
  rfl

theorem rank_pass (l : List Row) :
    (l.foldl (rankStep key order) (0, fun _ => (0, none), [])).1 = l.length ∧
      ∀ k, (l.foldl (rankStep key order) (0, fun _ => (0, none), [])).2.1 k =
        (l.countP fun r => key r = k, (l.filter fun r => key r = k).getLast?.bind order) := by
  induction l using List.reverseRecOn with
  | nil => exact ⟨rfl, fun _ => rfl⟩
  | append_singleton l p ih =>
    rw [List.foldl_append, List.foldl_cons, List.foldl_nil, rankStep]
    obtain ⟨hi, hstates⟩ := ih
    rcases hloop : l.foldl (rankStep key order) (0, fun _ => (0, none), []) with
      ⟨i, states, values⟩
    rw [hloop] at hi hstates
    have hupdate : ∀ k, Function.update states (key p) ((states (key p)).1 + 1, order p) k =
        ((l ++ [p]).countP fun r => key r = k,
          ((l ++ [p]).filter fun r => key r = k).getLast?.bind order) := by
      intro k
      have hsame : ∀ k, states k = _ := hstates
      by_cases hk : k = key p
      · simp [hk, hsame]
      · rw [Function.update_of_ne hk, hsame]
        simp [Ne.symm hk]
    dsimp only
    split_ifs with hfresh
    · exact ⟨by simp [← hi], hupdate⟩
    · rw [not_or, not_not] at hfresh
      rw [hfresh.1]
      exact ⟨by simp [← hi], hupdate⟩

theorem rank_values (l : List Row) (p : Row) :
    windowValues key order (l ++ [p]) .rank = windowValues key order l .rank ++
      [if (l.filter fun r => key r = key p).getLast?.bind order ≠ order p ∨ l = [] then
        showNumber ((l.countP fun r => key r = key p) + 1)
      else (windowValues key order l .rank).getLast?.getD (some "1")] := by
  rw [windowValues, windowValues, List.foldl_append, List.foldl_cons, List.foldl_nil, rankStep]
  obtain ⟨hi, hstates⟩ := rank_pass key order l
  rcases hloop : l.foldl (rankStep key order) (0, fun _ => (0, none), []) with
    ⟨i, states, values⟩
  rw [hloop] at hi hstates
  dsimp only at hi hstates ⊢
  simp only [hstates, hi, List.length_eq_zero_iff]
  split_ifs <;> rfl

def denseRankState (l : List Row) : PartitionState :=
  (l.foldl (denseRankStep key order) (fun _ => (0, none), [])).1

theorem denseRank_values (l : List Row) (p : Row) :
    windowValues key order (l ++ [p]) .denseRank = windowValues key order l .denseRank ++
      [showNumber ((denseRankState key order l (key p)).1 +
        if (denseRankState key order l (key p)).2 = order p then 0 else 1)] := by
  rw [windowValues, windowValues, denseRankState, List.foldl_append, List.foldl_cons,
    List.foldl_nil, denseRankStep]
  by_cases hsame : (denseRankState key order l (key p)).2 = order p
  · rw [denseRankState] at hsame
    simp [hsame]
  · rw [denseRankState] at hsame
    simp [hsame]

/-- After a pass that was right, the state has the number of the last row of each partition. -/
theorem denseRank_pass {right : Row → ℕ} (l : List Row)
    (hvalues : windowValues key order l .denseRank = l.map fun p => showNumber (right p))
    (k : String) :
    denseRankState key order l k =
      ((l.filter fun r => key r = k).getLast?.elim (0, none) fun q => (right q, order q)) := by
  induction l using List.reverseRecOn with
  | nil => rfl
  | append_singleton l p ih =>
    rw [denseRank_values, List.map_append, List.map_singleton] at hvalues
    obtain ⟨hbefore, hlast⟩ := List.append_inj' hvalues rfl
    have hnumber := showNumber_inj.mp (List.singleton_inj.mp hlast)
    have hstep : denseRankState key order (l ++ [p]) =
        Function.update (denseRankState key order l) (key p) (right p, order p) := by
      rw [← hnumber, denseRankState, List.foldl_append]
      change Function.update (denseRankState key order l) (key p)
        (if (denseRankState key order l (key p)).2 ≠ order p then
          ((denseRankState key order l (key p)).1 + 1, order p)
        else denseRankState key order l (key p)) = _
      by_cases hsame : (denseRankState key order l (key p)).2 = order p
      · rw [if_neg (not_not.mpr hsame), if_pos hsame, ← hsame]
        rfl
      · rw [if_pos hsame, if_neg hsame]
    rw [hstep]
    by_cases hk : k = key p
    · simp [hk]
    · rw [Function.update_of_ne hk, ih hbefore]
      simp [Ne.symm hk]

theorem length_windowValues (l : List Row) (kind : WindowFunctionKind) :
    (windowValues key order l kind).length = l.length := by
  induction l using List.reverseRecOn with
  | nil => cases kind <;> rfl
  | append_singleton l p ih =>
    cases kind with
    | rowNumber =>
      rw [(rowNumber_pass key order l).2, List.length_append, ih, List.length_append]
      rfl
    | rank =>
      rw [rank_values, List.length_append, ih, List.length_append]
      rfl
    | denseRank =>
      rw [denseRank_values, List.length_append, ih, List.length_append]
      rfl

end Passes

section Cells

def cellsOf (l : List WindowPlace) (values : List (Option String)) : List WindowCell :=
  l.zipWith (fun p value => (⟨p, value⟩ : WindowCell)) values

variable {l : List WindowPlace} {values : List (Option String)}

theorem places_cellsOf (hlength : values.length = l.length) :
    (cellsOf l values).map WindowCell.toWindowPlace = l := by
  rw [cellsOf, List.map_zipWith]
  induction l generalizing values with
  | nil => rfl
  | cons p l ih =>
    cases values with
    | nil => cases hlength
    | cons v values => rw [List.zipWith_cons_cons, ih (Nat.succ.inj hlength)]

theorem forall_cellsOf_iff (right : WindowPlace → Option String)
    (hlength : values.length = l.length) :
    (∀ c ∈ cellsOf l values, c.value = right c.toWindowPlace) ↔ values = l.map right := by
  induction l generalizing values with
  | nil => simp [cellsOf, List.length_eq_zero_iff.mp hlength]
  | cons p l ih =>
    cases values with
    | nil => cases hlength
    | cons v values =>
      change (∀ c ∈ ⟨p, v⟩ :: cellsOf l values, _) ↔ _
      rw [List.forall_mem_cons, ih (Nat.succ.inj hlength), List.map_cons, List.cons_eq_cons]

theorem cellsOf_concat {p : WindowPlace} {value : Option String}
    (hlength : values.length = l.length) :
    cellsOf (l ++ [p]) (values ++ [value]) = cellsOf l values ++ [⟨p, value⟩] :=
  List.zipWith_append hlength.symm

def rowNumberCells (l : List WindowPlace) : List WindowCell :=
  cellsOf l (windowValues WindowPlace.key WindowPlace.order l .rowNumber)

theorem rowNumberCells_concat (l : List WindowPlace) (p : WindowPlace) :
    rowNumberCells (l ++ [p]) =
      rowNumberCells l ++ [⟨p, showNumber ((l.countP fun q => q.key = p.key) + 1)⟩] := by
  rw [rowNumberCells, (rowNumber_pass _ _ l).2, cellsOf_concat (length_windowValues _ _ l _)]
  rfl

theorem numbers_of_key (l : List WindowPlace) (k : String) :
    ((rowNumberCells l).filter fun c => c.key = k).map WindowCell.value =
      (List.range (l.countP fun p => p.key = k)).map fun n => showNumber (n + 1) := by
  induction l using List.reverseRecOn with
  | nil => rfl
  | append_singleton l p ih =>
    rw [rowNumberCells_concat, List.filter_append, List.map_append, ih, List.countP_append]
    by_cases hk : p.key = k
    · simp [hk, List.range_succ]
    · simp [hk]

theorem mem_of_mem_rowNumberCells {c : WindowCell} (hc : c ∈ rowNumberCells l) :
    c.toWindowPlace ∈ l := by
  rw [← places_cellsOf (length_windowValues WindowPlace.key WindowPlace.order l .rowNumber)]
  exact List.mem_map_of_mem hc

theorem exists_mem_rowNumberCells {p : WindowPlace} (hp : p ∈ l) :
    ∃ c ∈ rowNumberCells l, c.toWindowPlace = p := by
  rw [← places_cellsOf (length_windowValues WindowPlace.key WindowPlace.order l .rowNumber)] at hp
  exact List.mem_map.mp hp

end Cells

section Sorted
variable {fmt : Formats} {desc : Bool} {l : List WindowPlace}

/-- The places of sorted rows. -/
structure SortedPlaces (fmt : Formats) (desc : Bool) (l : List WindowPlace) : Prop where
  consistent : ConsistentOn (orderOrdering fmt desc) {v | ∃ p ∈ l, p.order = v}
  sorted : l.Pairwise fun p q => orderOrdering fmt desc p.order q.order ≠ .gt

namespace SortedPlaces

theorem refl (h : SortedPlaces fmt desc l) {p : WindowPlace} (hp : p ∈ l) :
    orderOrdering fmt desc p.order p.order = .eq :=
  h.consistent.refl _ ⟨p, hp, rfl⟩

theorem swap (h : SortedPlaces fmt desc l) {p q : WindowPlace} (hp : p ∈ l) (hq : q ∈ l) :
    orderOrdering fmt desc q.order p.order = (orderOrdering fmt desc p.order q.order).swap :=
  h.consistent.swap _ ⟨p, hp, rfl⟩ _ ⟨q, hq, rfl⟩

theorem before_eq (h : SortedPlaces fmt desc l) {seen rest : List WindowPlace} {p : WindowPlace}
    (hl : l = seen ++ p :: rest) : before fmt desc l p = (seen.filter fun q =>
      q.partition = p.partition ∧ orderOrdering fmt desc q.order p.order = .lt :) := by
  have hsorted := h.sorted
  have hp : p ∈ l := by simp [hl]
  have hnone : ((p :: rest).filter fun q =>
      q.partition = p.partition ∧ orderOrdering fmt desc q.order p.order = .lt) = [] := by
    refine List.filter_eq_nil_iff.mpr fun q hq => ?_
    rw [decide_eq_true_eq, not_and]
    intro _ hlt
    rcases List.mem_cons.mp hq with rfl | hq'
    · rw [h.refl hp] at hlt
      cases hlt
    · rw [hl, List.pairwise_append, List.pairwise_cons] at hsorted
      refine hsorted.2.1.1 q hq' ?_
      rw [h.swap (by simp [hl, hq']) hp, hlt, Ordering.swap_lt]
  conv_lhs => rw [hl]
  rw [before, Multiset.filter_coe, List.filter_append, hnone, List.append_nil]

end SortedPlaces

theorem countP_eq_countP_iff {α : Type} {a b : α → Bool} (hba : ∀ x, b x → a x) (xs : List α) :
    xs.countP a = xs.countP b ↔ ∀ x ∈ xs, a x → b x := by
  induction xs with
  | nil => simp
  | cons x xs ih =>
    have hle : xs.countP b ≤ xs.countP a := List.countP_mono_left fun x _ => hba x
    rw [List.countP_cons, List.countP_cons, List.forall_mem_cons, ← ih]
    by_cases hb : b x
    · simp [hb, hba x hb]
    · by_cases ha : a x
      · simp only [ha, hb, if_true, if_false, Bool.false_eq_true, forall_const, false_and,
          iff_false]
        omega
      · simp [ha, hb]

theorem rank_right_iff (h : SortedPlaces fmt desc l) :
    windowValues WindowPlace.key WindowPlace.order l .rank =
        l.map (fun p => showNumber (rankOf fmt desc l p)) ↔
      EachAfter (RankFits fmt desc l) l := by
  refine values_right_iff (windowValues WindowPlace.key WindowPlace.order · .rank) _ rfl
    fun seen p rest hl => ⟨_, rank_values _ _ seen p, fun hvalues => ?_⟩
  rw [RankFits, lastInPartition]
  split_ifs with hfresh
  · have hcount := countP_eq_countP_iff
      (a := fun q : WindowPlace => decide (q.key = p.key)) (b := fun q => decide
        (q.partition = p.partition ∧ orderOrdering fmt desc q.order p.order = .lt))
      (fun q hq => by simp [WindowPlace.key, (of_decide_eq_true hq).1]) seen
    rw [showNumber_inj, rankOf, h.before_eq hl, Multiset.coe_card, ← List.countP_eq_length_filter,
      Nat.add_comm, Nat.add_left_cancel_iff, hcount]
    simp only [decide_eq_true_eq]
  · rw [not_or] at hfresh
    obtain ⟨seen', z, rfl⟩ := seen.eq_nil_or_concat.resolve_left hfresh.2
    rw [hvalues]
    simp [showNumber_inj]

namespace SortedPlaces

theorem peers_eq_iff (h : SortedPlaces fmt desc l) {p q : WindowPlace} (hp : p ∈ l) (hq : q ∈ l) :
    peers fmt desc l p = peers fmt desc l q ↔ orderOrdering fmt desc p.order q.order = .eq := by
  constructor
  · intro heq
    have hmem : q.order ∈ peers fmt desc l q :=
      Multiset.mem_filter.mpr ⟨Multiset.mem_map_of_mem _ hq, h.refl hq⟩
    rw [← heq] at hmem
    exact (Multiset.mem_filter.mp hmem).2
  · intro heq
    refine Multiset.filter_congr fun value hvalue => ?_
    obtain ⟨r, hr, rfl⟩ := Multiset.mem_map.mp hvalue
    rw [h.consistent.congr_left ⟨p, hp, rfl⟩ ⟨q, hq, rfl⟩ ⟨r, hr, rfl⟩ heq]

theorem denseRankOf_of_eq (h : SortedPlaces fmt desc l) {p q : WindowPlace} (hp : p ∈ l)
    (hq : q ∈ l) (hpartition : q.partition = p.partition)
    (heq : orderOrdering fmt desc q.order p.order = .eq) :
    denseRankOf fmt desc l p = denseRankOf fmt desc l q := by
  have hbefore : before fmt desc l p = before fmt desc l q := by
    refine Multiset.filter_congr fun r hr => ?_
    rw [hpartition, h.consistent.congr_right ⟨r, hr, rfl⟩ ⟨q, hq, rfl⟩ ⟨p, hp, rfl⟩ heq]
  rw [denseRankOf, denseRankOf, hbefore]

/-- Between two rows that follow each other in a partition there is no further value. -/
theorem mem_before_of_last (h : SortedPlaces fmt desc l) {seen rest : List WindowPlace}
    {p q r : WindowPlace} (hl : l = seen ++ p :: rest) (hlast : lastInPartition seen p = some q)
    (hpartition : q.partition = p.partition) (hr : r ∈ before fmt desc l p) :
    r ∈ l ∧ (orderOrdering fmt desc r.order q.order = .eq ∨ r ∈ before fmt desc l q) := by
  rw [h.before_eq hl, Multiset.mem_coe, List.mem_filter, decide_eq_true_eq] at hr
  obtain ⟨hseen, hsame, hlt⟩ := hr
  have hrl : r ∈ l := by simp [hl, hseen]
  refine ⟨hrl, ?_⟩
  have hfilter : r ∈ seen.filter fun q => q.key = p.key :=
    List.mem_filter.mpr ⟨hseen, by simp [WindowPlace.key, hsame]⟩
  obtain ⟨init, hinit⟩ := List.getLast?_eq_some_iff.mp hlast
  have hsorted : (seen.filter fun q => q.key = p.key).Pairwise fun p q =>
      orderOrdering fmt desc p.order q.order ≠ .gt := by
    have hpairs := h.sorted
    rw [hl, List.pairwise_append] at hpairs
    exact hpairs.1.filter _
  have hq : q ∈ l := by
    have : q ∈ seen.filter fun q => q.key = p.key := by simp [hinit]
    simp [hl, (List.mem_filter.mp this).1]
  rw [hinit] at hfilter hsorted
  rcases List.mem_append.mp hfilter with hmem | hmem
  · have hle := (List.pairwise_append.mp hsorted).2.2 r hmem q List.mem_cons_self
    rcases hcmp : orderOrdering fmt desc r.order q.order with _ | _ | _
    · exact .inr (Multiset.mem_filter.mpr ⟨hrl, hsame.trans hpartition.symm, hcmp⟩)
    · exact .inl rfl
    · exact absurd hcmp hle
  · rw [List.mem_singleton] at hmem
    exact .inl (by rw [hmem, h.refl hq])

theorem denseRankOf_of_lt (h : SortedPlaces fmt desc l) {seen rest : List WindowPlace}
    {p q : WindowPlace} (hl : l = seen ++ p :: rest) (hlast : lastInPartition seen p = some q)
    (hq : q ∈ l) (hpartition : q.partition = p.partition)
    (hlt : orderOrdering fmt desc q.order p.order = .lt) :
    denseRankOf fmt desc l p = denseRankOf fmt desc l q + 1 := by
  have hp : p ∈ l := by simp [hl]
  have hclasses : ((before fmt desc l p).map (peers fmt desc l)).toFinset =
      insert (peers fmt desc l q) ((before fmt desc l q).map (peers fmt desc l)).toFinset := by
    ext values
    simp only [Multiset.mem_toFinset, Multiset.mem_map, Finset.mem_insert]
    constructor
    · rintro ⟨r, hr, rfl⟩
      obtain ⟨hrl, heq | hbefore⟩ := h.mem_before_of_last hl hlast hpartition hr
      · exact .inl ((h.peers_eq_iff hrl hq).mpr heq)
      · exact .inr ⟨r, hbefore, rfl⟩
    · rintro (rfl | ⟨r, hr, rfl⟩)
      · exact ⟨q, Multiset.mem_filter.mpr ⟨hq, hpartition, hlt⟩, rfl⟩
      · obtain ⟨hrl, hsame, hrq⟩ := Multiset.mem_filter.mp hr
        exact ⟨r, Multiset.mem_filter.mpr ⟨hrl, hsame.trans hpartition,
          h.consistent.lt_of_lt_of_isLE ⟨r, hrl, rfl⟩ ⟨q, hq, rfl⟩ ⟨p, hp, rfl⟩ hrq
            (by rw [hlt]; rfl)⟩, rfl⟩
  have hnew : peers fmt desc l q ∉ ((before fmt desc l q).map (peers fmt desc l)).toFinset := by
    simp only [Multiset.mem_toFinset, Multiset.mem_map, not_exists, not_and]
    intro r hr heq
    obtain ⟨hrl, -, hrq⟩ := Multiset.mem_filter.mp hr
    rw [(h.peers_eq_iff hrl hq).mp heq] at hrq
    cases hrq
  rw [denseRankOf, denseRankOf, hclasses, Finset.card_insert_of_notMem hnew, Nat.add_assoc]

end SortedPlaces

theorem mem_of_lastInPartition {seen : List WindowPlace} {p q : WindowPlace}
    (hlast : lastInPartition seen p = some q) : q ∈ seen ∧ q.key = p.key := by
  have hmem := List.mem_filter.mp (List.mem_of_getLast? hlast)
  exact ⟨hmem.1, of_decide_eq_true hmem.2⟩

theorem denseRank_right_iff (h : SortedPlaces fmt desc l) :
    windowValues WindowPlace.key WindowPlace.order l .denseRank =
        l.map (fun p => showNumber (denseRankOf fmt desc l p)) ↔
      EachAfter (DenseRankFits fmt desc l) l := by
  refine values_right_iff (windowValues WindowPlace.key WindowPlace.order · .denseRank) _ rfl
    fun seen p rest hl => ⟨_, denseRank_values _ _ seen p, fun hvalues => ?_⟩
  have hp : p ∈ l := by simp [hl]
  have hstate : denseRankState WindowPlace.key WindowPlace.order seen p.key =
      (lastInPartition seen p).elim (0, none) fun q => (denseRankOf fmt desc l q, q.order) :=
    denseRank_pass _ _ seen hvalues p.key
  rw [hstate, showNumber_inj, DenseRankFits]
  rcases hlast : lastInPartition seen p with _ | q
  · have hnone : before fmt desc l p = 0 := by
      rw [h.before_eq hl]
      refine (Multiset.coe_eq_zero _).mpr (List.filter_eq_nil_iff.mpr fun q hq hsame => ?_)
      have hkey := List.filter_eq_nil_iff.mp (List.getLast?_eq_none_iff.mp hlast) q hq
      exact hkey (decide_eq_true (by simp [WindowPlace.key, (of_decide_eq_true hsame).1]))
    rw [denseRankOf, hnone]
    cases horder : p.order <;> simp
  · have hq : q ∈ l := by simp [hl, (mem_of_lastInPartition hlast).1]
    dsimp only [Option.elim]
    by_cases hpartition : q.partition = p.partition
    · rw [if_pos hpartition]
      by_cases hsame : q.order = p.order
      · have heq : orderOrdering fmt desc q.order p.order = .eq := by rw [hsame, h.refl hp]
        simp [h.denseRankOf_of_eq hp hq hpartition heq, hsame]
      · have hle : orderOrdering fmt desc q.order p.order ≠ .gt := by
          have hsorted := h.sorted
          rw [hl, List.pairwise_append] at hsorted
          exact hsorted.2.2 q (mem_of_lastInPartition hlast).1 p List.mem_cons_self
        rcases hcmp : orderOrdering fmt desc q.order p.order with _ | _ | _
        · simp [h.denseRankOf_of_lt hl hlast hq hpartition hcmp, hsame]
        · simp [h.denseRankOf_of_eq hp hq hpartition hcmp, hsame]
        · exact absurd hcmp hle
    · rw [if_neg hpartition]
      exact eq_comm

theorem SortedPlaces.of_concat {p : WindowPlace} (h : SortedPlaces fmt desc (l ++ [p])) :
    SortedPlaces fmt desc l where
  consistent := h.consistent.mono fun _ ⟨q, hq, hv⟩ => ⟨q, List.mem_append_left _ hq, hv⟩
  sorted := (List.pairwise_append.mp h.sorted).1

/-- Of two rows of a partition, the one strictly behind the other has the larger number. -/
theorem rowNumber_lt (h : SortedPlaces fmt desc l) {c d : WindowCell} (hc : c ∈ rowNumberCells l)
    (hd : d ∈ rowNumberCells l) (hkey : d.key = c.key)
    (hlt : orderOrdering fmt desc c.order d.order = .lt) :
    ∃ m n, c.value = showNumber m ∧ d.value = showNumber n ∧ m < n := by
  induction l using List.reverseRecOn with
  | nil => cases hc
  | append_singleton l p ih =>
    have hp : p ∈ l ++ [p] := by simp
    rw [rowNumberCells_concat, List.mem_append, List.mem_singleton] at hc hd
    rcases hc with hc | rfl
    · rcases hd with hd | rfl
      · exact ih h.of_concat hc hd
      · have hmem : c.value ∈ ((rowNumberCells l).filter fun e => e.key = p.key).map
            WindowCell.value :=
          List.mem_map_of_mem (List.mem_filter.mpr ⟨hc, decide_eq_true hkey.symm⟩)
        rw [numbers_of_key] at hmem
        obtain ⟨n, hn, hvalue⟩ := List.mem_map.mp hmem
        exact ⟨n + 1, _, hvalue.symm, rfl, Nat.succ_lt_succ (List.mem_range.mp hn)⟩
    · rcases hd with hd | rfl
      · have hdl := mem_of_mem_rowNumberCells hd
        have hle := (List.pairwise_append.mp h.sorted).2.2 _ hdl p List.mem_cons_self
        rw [h.swap hp (List.mem_append_left _ hdl), hlt] at hle
        exact absurd rfl hle
      · rw [h.refl hp] at hlt
        cases hlt

theorem exists_first {c : WindowCell} {cells : Multiset WindowCell} (hc : c ∈ cells)
    (hnumbers : (cells.filter fun d => d.partition = c.partition).map WindowCell.value =
      (Multiset.range (cells.filter fun d => d.partition = c.partition).card).map
        fun n => showNumber (n + 1)) :
    ∃ d ∈ cells, d.partition = c.partition ∧ d.value = showNumber 1 := by
  have hmem : showNumber 1 ∈ (cells.filter fun d => d.partition = c.partition).map
      WindowCell.value := by
    rw [hnumbers]
    refine Multiset.mem_map.mpr ⟨0, Multiset.mem_range.mpr ?_, rfl⟩
    exact Multiset.card_pos_iff_exists_mem.mpr ⟨c, Multiset.mem_filter.mpr ⟨hc, rfl⟩⟩
  obtain ⟨d, hd, hvalue⟩ := Multiset.mem_map.mp hmem
  obtain ⟨hd, hpartition⟩ := Multiset.mem_filter.mp hd
  exact ⟨d, hd, hpartition, hvalue⟩

theorem rowNumber_right_iff (h : SortedPlaces fmt desc l) :
    NumberedBy fmt desc (rowNumberCells l) .rowNumber ↔ Separate l := by
  constructor
  · intro hnumbered p hp q hq hkey
    obtain ⟨c, hc, rfl⟩ := exists_mem_rowNumberCells hp
    obtain ⟨d, hd, rfl⟩ := exists_mem_rowNumberCells hq
    obtain ⟨c', hc', hpartition, hvalue⟩ := exists_first hc (hnumbered c hc).1
    obtain ⟨d', hd', hpartition', hvalue'⟩ := exists_first hd (hnumbered d hd).1
    have hnodup : (((rowNumberCells l).filter fun e => e.key = c.key).map
        WindowCell.value).Nodup := by
      rw [numbers_of_key]
      exact List.nodup_range.map fun m n hmn => Nat.succ.inj (showNumber_inj.mp hmn)
    have hsame : c' = d' := List.inj_on_of_nodup_map hnodup
      (List.mem_filter.mpr ⟨hc', decide_eq_true (by rw [WindowPlace.key, hpartition]; rfl)⟩)
      (List.mem_filter.mpr ⟨hd', decide_eq_true (by
        rw [hkey, WindowPlace.key, hpartition']; rfl)⟩)
      (hvalue.trans hvalue'.symm)
    rw [← hpartition, hsame, hpartition']
  · intro hseparate c hc
    have hkey : ∀ d ∈ rowNumberCells l, d.partition = c.partition ↔ d.key = c.key := fun d hd =>
      ⟨fun hsame => by rw [WindowPlace.key, hsame]; rfl,
        hseparate _ (mem_of_mem_rowNumberCells hd) _ (mem_of_mem_rowNumberCells hc)⟩
    have hfilter : (rowNumberCells l : Multiset WindowCell).filter
        (fun d => d.partition = c.partition) =
          ((rowNumberCells l).filter fun d => d.key = c.key :) :=
      (Multiset.filter_congr hkey).trans (Multiset.filter_coe _ _)
    have hnumbers := numbers_of_key l c.key
    refine ⟨?_, fun d hd hlt => ?_⟩
    · have hlength := congrArg List.length hnumbers
      rw [List.length_map, List.length_map, List.length_range] at hlength
      rw [hfilter, Multiset.map_coe, Multiset.coe_card, hlength, hnumbers]
      rfl
    · rw [hfilter, Multiset.mem_coe, List.mem_filter, decide_eq_true_eq] at hd
      exact rowNumber_lt h hc hd.1 hd.2 hlt

theorem numberedBy_iff (h : SortedPlaces fmt desc l) (kind : WindowFunctionKind) :
    NumberedBy fmt desc (cellsOf l (windowValues WindowPlace.key WindowPlace.order l kind)) kind ↔
      PassFits fmt desc l kind := by
  have hlength := length_windowValues WindowPlace.key WindowPlace.order l kind
  have hplaces := congrArg (Multiset.ofList ·) (places_cellsOf hlength)
  cases kind with
  | rowNumber => exact rowNumber_right_iff h
  | rank =>
    refine Iff.trans ?_ (rank_right_iff h)
    rw [NumberedBy, Multiset.map_coe, hplaces]
    exact forall_cellsOf_iff (fun p => showNumber (rankOf fmt desc l p)) hlength
  | denseRank =>
    refine Iff.trans ?_ (denseRank_right_iff h)
    rw [NumberedBy, Multiset.map_coe, hplaces]
    exact forall_cellsOf_iff (fun p => showNumber (denseRankOf fmt desc l p)) hlength

end Sorted

section Steps
variable {fmt : Formats} {columns : List String} {w : ℕ} {rows : List ResultRow}
  {spec : WindowFunctionSpec}

/-- The columns of the window function are among the first ones of the result. -/
def ReadsBelow (columns : List String) (w : ℕ) (spec : WindowFunctionSpec) : Prop :=
  (∀ i, columnIdx columns spec.partitionCol = some i → i < w) ∧
    ∀ i, columnIdx columns spec.orderCol = some i → i < w

theorem cellOf_append {idx : Option ℕ} {row : ResultRow} (v : Option String)
    (hidx : ∀ i, idx = some i → i < row.length) : cellOf idx (row ++ [v]) = cellOf idx row := by
  cases idx with
  | none => rfl
  | some i => simp [cellOf, List.getElem?_append_left (hidx i rfl)]

theorem placeOf_append {row : ResultRow} (v : Option String)
    (hreads : ReadsBelow columns row.length spec) :
    placeOf columns spec (row ++ [v]) = placeOf columns spec row := by
  rw [placeOf, cellOf_append v hreads.1, cellOf_append v hreads.2]
  rfl

variable (fmt columns spec) in
theorem sortRows_perm (rows : List ResultRow) : (sortRows fmt columns spec rows).Perm rows := by
  rw [sortRows]
  split
  · exact .refl _
  · exact List.mergeSort_perm _ _

/-- What is in the rows already stays there; only their order changes. -/
theorem windowStep_frame {β : Type} {g : ResultRow → β}
    (hg : ∀ row ∈ rows, ∀ v, g (row ++ [v]) = g row) :
    ((windowStep fmt columns rows spec).map g : Multiset β) = (rows.map g : List β) := by
  have hperm := sortRows_perm fmt columns spec rows
  refine Multiset.coe_eq_coe.mpr (List.Perm.trans (.of_eq ?_) (hperm.map g))
  have hlength := length_windowValues (fun row => (cellOf (columnIdx columns spec.partitionCol)
    row).getD "") (cellOf (columnIdx columns spec.orderCol)) (sortRows fmt columns spec rows)
    spec.kind
  rw [windowStep]
  replace hg : ∀ row ∈ sortRows fmt columns spec rows, ∀ v, g (row ++ [v]) = g row :=
    fun row hrow => hg row (hperm.mem_iff.mp hrow)
  generalize windowValues _ _ _ _ = values at hlength
  generalize sortRows fmt columns spec rows = sorted at hg hlength
  induction sorted generalizing values with
  | nil => rfl
  | cons row sorted ih =>
    cases values with
    | nil => cases hlength
    | cons v values =>
      rw [List.zipWith_cons_cons, List.map_cons, List.map_cons, hg row List.mem_cons_self,
        ih values (fun r hr => hg r (List.mem_cons_of_mem _ hr)) (Nat.succ.inj hlength)]

variable (fmt columns spec) in
theorem windowStep_width (hwidth : ∀ row ∈ rows, row.length = w) :
    ∀ row ∈ windowStep fmt columns rows spec, row.length = w + 1 := by
  intro row hrow
  rw [windowStep, ← List.map_uncurry_zip_eq_zipWith] at hrow
  obtain ⟨⟨row', v⟩, hmem, rfl⟩ := List.mem_map.mp hrow
  have hrow' := (sortRows_perm fmt columns spec rows).mem_iff.mp (List.of_mem_zip hmem).1
  simp [hwidth row' hrow']

theorem windowCells_step (hwidth : ∀ row ∈ rows, row.length = w)
    (hreads : ReadsBelow columns w spec) :
    windowCells columns spec w (windowStep fmt columns rows spec) =
      (cellsOf ((sortRows fmt columns spec rows).map (placeOf columns spec))
        (windowValues WindowPlace.key WindowPlace.order
          ((sortRows fmt columns spec rows).map (placeOf columns spec)) spec.kind) :) := by
  have hvalues : windowValues WindowPlace.key WindowPlace.order
      ((sortRows fmt columns spec rows).map (placeOf columns spec)) spec.kind =
      windowValues (fun row => (cellOf (columnIdx columns spec.partitionCol) row).getD "")
        (cellOf (columnIdx columns spec.orderCol)) (sortRows fmt columns spec rows) spec.kind := by
    cases spec.kind <;> simp only [windowValues, List.foldl_map] <;> rfl
  rw [hvalues, windowCells, windowStep]
  refine congrArg Multiset.ofList ?_
  replace hwidth : ∀ row ∈ sortRows fmt columns spec rows, row.length = w :=
    fun row hrow => hwidth row ((sortRows_perm fmt columns spec rows).mem_iff.mp hrow)
  generalize windowValues _ _ _ _ = values
  generalize sortRows fmt columns spec rows = sorted at hwidth
  clear hvalues
  induction sorted generalizing values with
  | nil => rfl
  | cons row sorted ih =>
    cases values with
    | nil => rfl
    | cons v values =>
      have hrow := hwidth row List.mem_cons_self
      rw [List.zipWith_cons_cons, List.map_cons, ih values fun r hr => hwidth r (.tail _ hr),
        placeOf_append v (by rwa [hrow]), cellOf, ← hrow]
      simp [cellsOf]

theorem sortedPlaces_sortRows (hconsistent : ConsistentOn (orderOrdering fmt spec.orderDesc)
      {v | ∃ row ∈ rows, (placeOf columns spec row).order = v}) :
    SortedPlaces fmt spec.orderDesc
      ((sortRows fmt columns spec rows).map (placeOf columns spec)) := by
  have hplaces : ∀ p ∈ (sortRows fmt columns spec rows).map (placeOf columns spec),
      ∃ row ∈ rows, (placeOf columns spec row).order = p.order := by
    intro p hp
    obtain ⟨row, hrow, rfl⟩ := List.mem_map.mp hp
    exact ⟨row, (sortRows_perm fmt columns spec rows).mem_iff.mp hrow, rfl⟩
  refine ⟨hconsistent.mono fun _ ⟨p, hp, hv⟩ => hv ▸ hplaces p hp, ?_⟩
  rw [List.pairwise_map, sortRows]
  split
  case h_1 hidx =>
    have hnone : ∀ row, (placeOf columns spec row).order = none := fun row => by
      rw [placeOf, hidx]
      rfl
    refine List.Pairwise.imp_of_mem (R := fun _ _ => True) (fun {row row'} hrow _ _ => ?_)
      (List.pairwise_of_forall fun _ _ => trivial)
    rw [(hnone row').trans (hnone row).symm, hconsistent.refl _ ⟨row, hrow, rfl⟩]
    decide
  case h_2 idx hidx =>
    have hcell : ∀ row, (placeOf columns spec row).order = cellOf (some idx) row := fun row => by
      rw [placeOf, hidx]
    simp only [hcell] at hconsistent ⊢
    exact (ConsistentOn.mergeSort (hconsistent.comap fun row hrow => ⟨row, hrow, rfl⟩)).2

theorem numbered_windowStep_iff (hwidth : ∀ row ∈ rows, row.length = w)
    (hreads : ReadsBelow columns w spec) :
    Numbered fmt spec.orderDesc spec.kind
        (windowCells columns spec w (windowStep fmt columns rows spec)) ↔
      WindowFits fmt columns spec rows := by
  have hlength := length_windowValues WindowPlace.key WindowPlace.order
    ((sortRows fmt columns spec rows).map (placeOf columns spec)) spec.kind
  have horders : {v | ∃ c ∈ windowCells columns spec w (windowStep fmt columns rows spec),
      c.order = v} = {v | ∃ row ∈ rows, (placeOf columns spec row).order = v} := by
    have hplaces := congrArg (Multiset.map WindowPlace.order ∘ Multiset.ofList)
      (places_cellsOf hlength)
    simp only [Function.comp_apply, Multiset.map_coe, List.map_map] at hplaces
    ext v
    have hmem := congrArg (v ∈ ·) hplaces
    rw [windowCells_step hwidth hreads]
    simpa [(sortRows_perm fmt columns spec rows).mem_iff] using hmem
  constructor
  · rintro ⟨hconsistent, hnumbers⟩
    rw [horders] at hconsistent
    rw [windowCells_step hwidth hreads] at hnumbers
    exact ⟨hconsistent, (numberedBy_iff (sortedPlaces_sortRows hconsistent) _).mp hnumbers⟩
  · rintro ⟨hconsistent, hpass⟩
    refine ⟨by rwa [horders], ?_⟩
    rw [windowCells_step hwidth hreads]
    exact (numberedBy_iff (sortedPlaces_sortRows hconsistent) _).mpr hpass

variable (fmt) in
theorem windowCells_frame (hwidth : ∀ row ∈ rows, row.length = w) {i : ℕ} (hi : i < w)
    (hreads : ReadsBelow columns w spec) (specs : List WindowFunctionSpec) :
    windowCells columns spec i (specs.foldl (windowStep fmt columns) rows) =
      windowCells columns spec i rows := by
  induction specs generalizing rows w with
  | nil => rfl
  | cons spec' specs ih =>
    rw [List.foldl_cons, ih (windowStep_width fmt columns spec' hwidth) (Nat.lt_succ_of_lt hi)
      ⟨fun j hj => Nat.lt_succ_of_lt (hreads.1 j hj), fun j hj =>
        Nat.lt_succ_of_lt (hreads.2 j hj)⟩]
    refine windowStep_frame fun row hrow v => ?_
    have hrow := hwidth row hrow
    rw [placeOf_append v (by rwa [hrow]), cellOf_append v fun j hj => by
      rwa [hrow, ← Option.some.inj hj]]

theorem numbered_foldl_iff (specs : List WindowFunctionSpec)
    (hwidth : ∀ row ∈ rows, row.length = w)
    (hreads : ∀ spec ∈ specs, ReadsBelow columns w spec) :
    (∀ k spec, specs[k]? = some spec → Numbered fmt spec.orderDesc spec.kind
        (windowCells columns spec (w + k) (specs.foldl (windowStep fmt columns) rows))) ↔
      ∀ k spec, specs[k]? = some spec →
        WindowFits fmt columns spec ((specs.take k).foldl (windowStep fmt columns) rows) := by
  induction specs generalizing rows w with
  | nil => simp
  | cons spec specs ih =>
    have hspec := hreads spec List.mem_cons_self
    have hlater : ∀ spec' ∈ spec :: specs, ReadsBelow columns (w + 1) spec' := fun spec' hmem =>
      ⟨fun j hj => Nat.lt_succ_of_lt ((hreads spec' hmem).1 j hj), fun j hj =>
        Nat.lt_succ_of_lt ((hreads spec' hmem).2 j hj)⟩
    have hwidth' := windowStep_width fmt columns spec hwidth
    have hfirst := windowCells_frame fmt hwidth' w.lt_succ_self (hlater spec List.mem_cons_self)
      specs
    have hrest := ih hwidth' fun spec' hmem => hlater spec' (List.mem_cons_of_mem _ hmem)
    constructor
    · intro h k spec' hk
      cases k with
      | zero =>
        obtain rfl : spec = spec' := Option.some.inj hk
        have hnumbered := h 0 spec rfl
        rw [List.foldl_cons, Nat.add_zero, hfirst] at hnumbered
        exact (numbered_windowStep_iff hwidth hspec).mp hnumbered
      | succ k =>
        refine hrest.mp (fun k' spec'' hk' => ?_) k spec' hk
        rw [Nat.add_right_comm, Nat.add_assoc]
        exact h (k' + 1) spec'' hk'
    · intro h k spec' hk
      cases k with
      | zero =>
        obtain rfl : spec = spec' := Option.some.inj hk
        rw [List.foldl_cons, Nat.add_zero, hfirst]
        exact (numbered_windowStep_iff hwidth hspec).mpr (h 0 spec rfl)
      | succ k =>
        have hnumbered := hrest.mpr (fun k' spec'' hk' => h (k' + 1) spec'' hk') k spec' hk
        rwa [Nat.add_right_comm, Nat.add_assoc] at hnumbered

end Steps

section Query
variable {fmt : Formats} {columns : List String}

/-- The columns that a window function names are in the result it is computed on. -/
def ColumnsPresent (columns : List String) (spec : WindowFunctionSpec) : Prop :=
  ∀ name, spec.partitionCol = some name ∨ spec.orderCol = some name →
    ∃ column ∈ columns, eqIgnoreAsciiCase column name = true

theorem columnIdx_lt {name : Option String} (more : List String)
    (hname : ∀ n, name = some n → ∃ column ∈ columns, eqIgnoreAsciiCase column n = true) (i : ℕ)
    (hi : columnIdx (columns ++ more) name = some i) : i < columns.length := by
  cases name with
  | none => cases hi
  | some n =>
    obtain ⟨column, hmem, heq⟩ := hname n rfl
    rw [columnIdx, Option.bind_some, List.findIdx?_append] at hi
    cases hfirst : columns.findIdx? (eqIgnoreAsciiCase · n) with
    | none => exact absurd heq (by simp [List.findIdx?_eq_none_iff.mp hfirst column hmem])
    | some j =>
      rw [hfirst, Option.some_or, Option.some.injEq] at hi
      exact hi ▸ (List.findIdx?_eq_some_iff_findIdx_eq.mp hfirst).1

theorem ColumnsPresent.readsBelow {spec : WindowFunctionSpec} (h : ColumnsPresent columns spec)
    (more : List String) : ReadsBelow (columns ++ more) columns.length spec :=
  ⟨columnIdx_lt more fun n hn => h n (.inl hn), columnIdx_lt more fun n hn => h n (.inr hn)⟩

/-- Every window function of a query numbers the rows as it should if and only if it gets rows
that its pass is right on. -/
theorem mysqlTryWindowFunctionQuery_numbered_iff (rows : List ResultRow)
    (windowSpecs : List WindowFunctionSpec)
    (hwidth : ∀ row ∈ rows, row.length = columns.length)
    (hpresent : ∀ spec ∈ windowSpecs, ColumnsPresent columns spec) :
    (∀ k spec, windowSpecs[k]? = some spec → Numbered fmt spec.orderDesc spec.kind
      (windowCells (mysqlTryWindowFunctionQuery fmt columns rows windowSpecs).1 spec
        (columns.length + k) (mysqlTryWindowFunctionQuery fmt columns rows windowSpecs).2)) ↔
    ∀ k spec, windowSpecs[k]? = some spec →
      WindowFits fmt (columns ++ windowSpecs.map WindowFunctionSpec.aliasName) spec
        ((windowSpecs.take k).foldl
          (windowStep fmt (columns ++ windowSpecs.map WindowFunctionSpec.aliasName)) rows) :=
  numbered_foldl_iff windowSpecs hwidth fun spec hspec =>
    (hpresent spec hspec).readsBelow (windowSpecs.map WindowFunctionSpec.aliasName)

end Query

section Sample

def plainTexts : Formats := ⟨fun _ => none, fun _ => "", fun _ => ""⟩

def sampleColumns : List String := ["p", "o"]

def sampleRank : WindowFunctionSpec := ⟨.rank, "rank", some "p", some "o", false⟩

def interleavedRows : List ResultRow :=
  [[some "a", some "x"], [some "a", some "y"], [some "b", some "y"], [some "a", some "y"]]

theorem sampleRank_present : ColumnsPresent sampleColumns sampleRank := by
  rintro name (h | h) <;> cases h
  · exact ⟨"p", by decide, beq_self_eq_true _⟩
  · exact ⟨"o", by decide, beq_self_eq_true _⟩

theorem window_numbers_sample :
    (∀ k spec, [sampleRank][k]? = some spec → Numbered plainTexts spec.orderDesc spec.kind
      (windowCells (mysqlTryWindowFunctionQuery plainTexts sampleColumns interleavedRows
          [sampleRank]).1 spec (sampleColumns.length + k)
        (mysqlTryWindowFunctionQuery plainTexts sampleColumns interleavedRows [sampleRank]).2)) ↔
    ∀ k spec, [sampleRank][k]? = some spec →
      WindowFits plainTexts (sampleColumns ++ [sampleRank].map WindowFunctionSpec.aliasName) spec
        (([sampleRank].take k).foldl (windowStep plainTexts
          (sampleColumns ++ [sampleRank].map WindowFunctionSpec.aliasName)) interleavedRows) :=
  mysqlTryWindowFunctionQuery_numbered_iff interleavedRows [sampleRank] (by decide)
    (by simpa using sampleRank_present)

/-- Behind a row of another partition, a row with the value of its predecessor takes the rank of
that other row. -/
theorem rank_of_another_partition :
    ¬ Numbered plainTexts sampleRank.orderDesc sampleRank.kind
      (windowCells (mysqlTryWindowFunctionQuery plainTexts sampleColumns interleavedRows
          [sampleRank]).1 sampleRank sampleColumns.length
        (mysqlTryWindowFunctionQuery plainTexts sampleColumns interleavedRows [sampleRank]).2) := by
  intro hnumbered
  have hfits := (numbered_windowStep_iff (w := 2) (by decide)
    (sampleRank_present.readsBelow ["rank"])).mp hnumbered
  have horder : columnIdx (sampleColumns ++ ["rank"]) sampleRank.orderCol = some 1 := by
    decide +kernel
  have hsorted : sortRows plainTexts (sampleColumns ++ ["rank"]) sampleRank interleavedRows =
      interleavedRows := by
    rw [sortRows, horder]
    exact List.mergeSort_of_pairwise (by decide +kernel)
  have hpass := hfits.pass
  rw [hsorted] at hpass
  exact absurd (hpass [⟨some "a", some "x"⟩, ⟨some "a", some "y"⟩, ⟨some "b", some "y"⟩]
    ⟨some "a", some "y"⟩ [] (by decide +kernel)) (by decide +kernel)

end Sample

end SkeinDB.Sessions
