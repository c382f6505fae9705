import SkeinDB.Codec.Checked
import SkeinDB.Queries.Sorting

/-!
# LIMIT and OFFSET

The paths of a SELECT sort and deduplicate the rows that they collect, each in its way, and then cut
a window out of them with the same unchecked addition. A window is the one that was asked for
exactly if the addition stays below 2^64, or if the build wraps it and the offset is past the rows.
-/
namespace SkeinDB.Queries
open SkeinDB.Codec SkeinDB.Tables

inductive Build
  | debug
  | release
  deriving DecidableEq

/-- `a + b` on `usize`: without the checks of a debug build it wraps. -/
def Build.add : Build → ℕ → ℕ → Checked String ℕ
  | .debug, a, b => Checked.add a b
  | .release, a, b => .ok ((a + b) % 2 ^ 64)

def windowRows {α : Type} (build : Build) (limit : Option LimitClause) (rows : List α) :
    Checked String (List α) :=
  match limit with
  | none => .ok rows
  | some clause => do
    let off := clause.offset.getD 0
    let lim := clause.limit.getD rows.length
    let stop ← build.add off lim
    if rows.length ≤ off then .ok [] else Checked.slice rows off (min stop rows.length)

section Paths
variable (fmt : Formats) (text : LitsText) {X : Type}

def orderedRows (q : TableSelect X) (items : List (List Lit × List Lit)) : List (List Lit) :=
  (if q.orderBy.isEmpty then items else sortRows fmt q.orderBy items).map (·.2)

/-- The paths that cut a window. The rows near the vector of an order have a path of their own,
which is not taken for distinct rows. -/
inductive SelectPath
  | vectorShortcut
  | baseTable
  | snapshot
  | general
  deriving DecidableEq

/-- The rows before LIMIT and OFFSET. -/
def SelectPath.collected (path : SelectPath) (q : TableSelect X)
    (items : List (List Lit × List Lit)) : List (List Lit) :=
  let rows := orderedRows fmt q items
  match path with
  | .vectorShortcut => rows
  | .baseTable | .snapshot | .general => if q.distinct then dedupSelectRows text rows else rows

def SelectPath.answer (path : SelectPath) (build : Build) (q : TableSelect X)
    (items : List (List Lit × List Lit)) : Checked String (List (List Lit)) :=
  windowRows build q.limit (path.collected fmt text q items)

end Paths

namespace LimitClause

/-- `skip(offset)` and then `take(limit)`. -/
def window {α : Type} (clause : LimitClause) (rows : List α) : List α :=
  (rows.drop (clause.offset.getD 0)).take (clause.limit.getD rows.length)

/-- Both numbers are a `u64`. -/
structure IsU64 (clause : LimitClause) : Prop where
  limit : ∀ n ∈ clause.limit, n < 2 ^ 64
  offset : ∀ n ∈ clause.offset, n < 2 ^ 64

/-- The end of the window in a list of `len` rows can be computed. -/
def EndsIn (clause : LimitClause) (len : ℕ) : Prop :=
  clause.offset.getD 0 + clause.limit.getD len < 2 ^ 64

instance (clause : LimitClause) (len : ℕ) : Decidable (clause.EndsIn len) :=
  inferInstanceAs (Decidable (_ < _))

end LimitClause

/-- A build cuts the window out of `len` rows that a clause asks for. -/
def Build.Cuts (build : Build) (clause : LimitClause) (len : ℕ) : Prop :=
  clause.EndsIn len ∨ build = .release ∧ len ≤ clause.offset.getD 0

section Window
variable {α : Type} {build : Build} {clause : LimitClause} {rows : List α}

theorem Build.add_eq {a b : ℕ} (h : a + b < 2 ^ 64) : build.add a b = .ok (a + b) := by
  cases build with
  | debug => exact Checked.add_eq h
  | release => exact congrArg Except.ok (Nat.mod_eq_of_lt h)

theorem LimitClause.window_eq_slice (clause : LimitClause) (rows : List α) :
    clause.window rows =
      (rows.take (min (clause.offset.getD 0 + clause.limit.getD rows.length) rows.length)).drop
        (clause.offset.getD 0) := by
  rw [window, List.drop_take, List.take_eq_take_iff, List.length_drop]
  omega

theorem LimitClause.window_past (h : rows.length ≤ clause.offset.getD 0) :
    clause.window rows = [] := by
  rw [window, List.drop_eq_nil_of_le h, List.take_nil]

theorem windowRows_of_endsIn (h : clause.EndsIn rows.length) :
    windowRows build (some clause) rows = .ok (clause.window rows) := by
  rw [windowRows, Build.add_eq h]
  dsimp only [bind, Except.bind]
  split_ifs with hoff
  · rw [LimitClause.window_past hoff]
  · rw [LimitClause.window_eq_slice, Checked.slice_eq]
    omega

theorem windowRows_past (h : rows.length ≤ clause.offset.getD 0) :
    windowRows .release (some clause) rows = .ok (clause.window rows) := by
  rw [windowRows, LimitClause.window_past h]
  exact if_pos h

/-- The sum of two `u64` wraps to less than either, so that the slice ends before it starts. -/
theorem windowRows_release_panics (hu64 : clause.IsU64) (hlen : rows.length ≤ isizeMax)
    (h : ¬ clause.EndsIn rows.length) (hoff : clause.offset.getD 0 < rows.length) :
    windowRows .release (some clause) rows = .error (.fault .outOfBounds) := by
  have hlim : clause.limit.getD rows.length < 2 ^ 64 := by
    cases hl : clause.limit with
    | none => exact lt_of_le_of_lt hlen (by decide)
    | some n => exact hu64.limit n hl
  rw [LimitClause.EndsIn, not_lt] at h
  have hlen' : rows.length < 2 ^ 63 := lt_of_le_of_lt hlen (by decide)
  have hwrap : (clause.offset.getD 0 + clause.limit.getD rows.length) % 2 ^ 64 <
      clause.offset.getD 0 := by
    rw [Nat.mod_eq_sub_mod h, Nat.mod_eq_of_lt] <;> omega
  rw [windowRows]
  dsimp only [Build.add, bind, Except.bind]
  rw [if_neg (by omega), Checked.slice, if_neg (by omega)]

theorem windowRows_debug_panics (h : ¬ clause.EndsIn rows.length) :
    windowRows .debug (some clause) rows = .error (.fault .arithmeticOverflow) := by
  rw [windowRows, Build.add, Checked.add, if_neg (not_lt.mpr (not_lt.mp h))]
  rfl

theorem windowRows_eq_iff (hu64 : clause.IsU64) (hlen : rows.length ≤ isizeMax) :
    windowRows build (some clause) rows = .ok (clause.window rows) ↔
      build.Cuts clause rows.length := by
  constructor
  · intro heq
    by_contra hcuts
    obtain ⟨hends, hpast⟩ := not_or.mp hcuts
    cases build with
    | debug =>
      rw [windowRows_debug_panics hends] at heq
      cases heq
    | release =>
      rw [windowRows_release_panics hu64 hlen hends
        (not_le.mp fun hoff => hpast ⟨rfl, hoff⟩)] at heq
      cases heq
  · rintro (hends | ⟨rfl, hoff⟩)
    · exact windowRows_of_endsIn hends
    · exact windowRows_past hoff

/-- Where the window is cut, it is the one that the rows of a SELECT are limited to. -/
theorem limitRows_of_windowRows {limit : Option LimitClause} {out : List α}
    (h : windowRows build limit rows = .ok out) : limitRows limit rows = out := by
  cases limit with
  | none => exact Except.ok.inj h
  | some clause =>
    obtain ⟨stop, hstop, h⟩ : ∃ stop, stop = (clause.offset.getD 0 +
        clause.limit.getD rows.length) % 2 ^ 64 ∧
        (if rows.length ≤ clause.offset.getD 0 then .ok []
          else Checked.slice rows (clause.offset.getD 0) (min stop rows.length)) =
          (Except.ok out : Checked String (List α)) := by
      cases build with
      | release => exact ⟨_, rfl, h⟩
      | debug =>
        by_cases hends : clause.EndsIn rows.length
        · rw [windowRows] at h
          dsimp only [Build.add] at h
          rw [Checked.add_eq hends] at h
          exact ⟨_, (Nat.mod_eq_of_lt hends).symm, h⟩
        · rw [windowRows_debug_panics hends] at h
          cases h
    rw [limitRows, ← hstop]
    split_ifs at h ⊢ with hoff
    · exact Except.ok.inj h
    · rw [Checked.slice] at h
      split_ifs at h with hbounds
      exact Except.ok.inj h

end Window

section Select
variable (fmt : Formats) (text : LitsText) {X : Type}

theorem dedupRows_length_le (seen : List String) (rows : List (List Lit)) :
    (dedupRows text seen rows).length ≤ rows.length := by
  induction rows generalizing seen with
  | nil => exact le_rfl
  | cons row rows ih =>
    rw [dedupRows]
    split
    · exact (ih seen).trans (Nat.le_succ _)
    · exact Nat.succ_le_succ (ih _)

theorem SelectPath.collected_length_le (path : SelectPath) (q : TableSelect X)
    (items : List (List Lit × List Lit)) :
    (path.collected fmt text q items).length ≤ items.length := by
  have hordered : (orderedRows fmt q items).length = items.length := by
    rw [orderedRows, List.length_map]
    split
    · rfl
    · exact List.length_mergeSort _
  have hdedup := dedupRows_length_le text [] (orderedRows fmt q items)
  cases path with
  | vectorShortcut => exact hordered.le
  | baseTable | snapshot | general =>
    dsimp only [collected]
    split
    · exact hdedup.trans hordered.le
    · exact hordered.le

/-- Without DISTINCT all paths collect the same rows, with it those that deduplicate. -/
theorem SelectPath.collected_eq {path other : SelectPath} {q : TableSelect X}
    (h : q.distinct = true → (other = .vectorShortcut ↔ path = .vectorShortcut))
    (items : List (List Lit × List Lit)) :
    other.collected fmt text q items = path.collected fmt text q items := by
  cases hdistinct : q.distinct with
  | false =>
    have hplain : ∀ path : SelectPath, path.collected fmt text q items = orderedRows fmt q items := by
      intro path
      cases path <;> simp [collected, hdistinct]
    rw [hplain, hplain]
  | true =>
    have hpath := h hdistinct
    cases path <;> cases other <;> first | rfl | simp at hpath

/-- The window is cut as asked for exactly if its end can be computed, and two paths answer alike
where they collect the same rows: always without DISTINCT, and with it where both deduplicate. -/
theorem select_windows_iff (path : SelectPath) (build : Build) (q : TableSelect X)
    (items : List (List Lit × List Lit)) (clause : LimitClause) (hlimit : q.limit = some clause)
    (hu64 : clause.IsU64) (hlen : items.length ≤ isizeMax) :
    (path.answer fmt text build q items = .ok (clause.window (path.collected fmt text q items)) ↔
      build.Cuts clause (path.collected fmt text q items).length) ∧
    ∀ other : SelectPath, ((q.distinct = true → (other = .vectorShortcut ↔ path = .vectorShortcut)) ∨
        other.collected fmt text q items = path.collected fmt text q items) →
      other.answer fmt text build q items = path.answer fmt text build q items := by
  refine ⟨?_, fun other hother => ?_⟩
  · rw [SelectPath.answer, hlimit]
    exact windowRows_eq_iff hu64 ((path.collected_length_le fmt text q items).trans hlen)
  · have hrows := hother.elim (fun h => SelectPath.collected_eq fmt text h items) id
    rw [SelectPath.answer, SelectPath.answer, hrows]

def secondRowOn : TableSelect Unit where
  base := ⟨"app", "posts", none⟩
  columns := ["id"]
  projection := [.col "id" none]
  limit := some { limit := some 1, offset := some 1 }

theorem select_windows_iff_sample :
    SelectPath.general.answer plainFormats (fun _ => "") .release secondRowOn
      [([], [.i64 1]), ([], [.i64 2]), ([], [.i64 3])] = .ok [[.i64 2]] :=
  (select_windows_iff plainFormats (fun _ => "") .general .release secondRowOn
    [([], [.i64 1]), ([], [.i64 2]), ([], [.i64 3])] _ rfl
    ⟨by simp, by simp⟩ (by decide)).1.mpr (.inl (by decide))

/-- `LIMIT 18446744073709551615 OFFSET 1`, as MySQL asks for all rows but the first. -/
theorem all_but_the_first_panics :
    SelectPath.general.answer plainFormats (fun _ => "") .release
        { secondRowOn with limit := some { limit := some u64Max, offset := some 1 } }
        [([], [.i64 1]), ([], [.i64 2])] = .error (.fault .outOfBounds) ∧
      SelectPath.general.answer plainFormats (fun _ => "") .debug
        { secondRowOn with limit := some { limit := some u64Max, offset := some 1 } }
        [([], [.i64 1]), ([], [.i64 2])] = .error (.fault .arithmeticOverflow) :=
  ⟨rfl, rfl⟩

end Select

end SkeinDB.Queries
