import SkeinDB.Search.Windows
import SkeinDB.Tables.State

/-!
# Coverage of edge bundles

`skeindb/src/engine.rs`: an edge keeps for each table the windows of change numbers that its
bundles brought, `merge_edge_coverage_windows` joins those that overlap or touch, and
`edge_contiguous_coverage_end` finds how far they reach from a required start without a gap.
-/
namespace SkeinDB.Changes
open SkeinDB.Tables SkeinDB.Search

structure EdgeCoverage where
  table : TableKey
  startSeq : ℕ
  endSeq : ℕ
  bundleId : String
  redactionMode : String
  updatedAtMs : ℕ
  startSeq_le : startSeq ≤ u64Max
  endSeq_le : endSeq ≤ u64Max

namespace EdgeCoverage

/-- The order of `sort_by_key`, by start and then by end. -/
def keyLe (a b : EdgeCoverage) : Bool :=
  a.startSeq < b.startSeq || (a.startSeq = b.startSeq && a.endSeq ≤ b.endSeq)

def near (last current : EdgeCoverage) : Bool := current.startSeq ≤ saturatingSucc last.endSeq

/-- The last merged window extended by the current one. -/
def extend (last current : EdgeCoverage) : EdgeCoverage :=
  let takeMetadata := last.updatedAtMs ≤ current.updatedAtMs || last.endSeq ≤ current.endSeq
  { table := last.table
    startSeq := min last.startSeq current.startSeq
    endSeq := max last.endSeq current.endSeq
    bundleId := if takeMetadata then current.bundleId else last.bundleId
    redactionMode := if takeMetadata then current.redactionMode else last.redactionMode
    updatedAtMs := if takeMetadata then current.updatedAtMs else last.updatedAtMs
    startSeq_le := (min_le_left _ _).trans last.startSeq_le
    endSeq_le := max_le last.endSeq_le current.endSeq_le }

/-- The loop of `merge_edge_coverage_windows` over the sorted windows. -/
def mergeLoop : List EdgeCoverage → List EdgeCoverage → List EdgeCoverage
  | merged, [] => merged
  | merged, current :: rest =>
    match merged.getLast? with
    | some last =>
      if near last current then mergeLoop (merged.dropLast ++ [extend last current]) rest
      else mergeLoop (merged ++ [current]) rest
    | none => mergeLoop (merged ++ [current]) rest

def mergeEdgeCoverageWindows (windows : List EdgeCoverage) : List EdgeCoverage :=
  mergeLoop [] (windows.mergeSort keyLe)

/-- The loop of `edge_contiguous_coverage_end` over the merged windows. -/
def contiguousLoop : ℕ → List EdgeCoverage → ℕ × Bool
  | coveredThrough, [] => (coveredThrough, false)
  | coveredThrough, window :: rest =>
    if window.endSeq ≤ coveredThrough then contiguousLoop coveredThrough rest
    else if window.startSeq > saturatingSucc coveredThrough then (coveredThrough, true)
    else contiguousLoop (max coveredThrough window.endSeq) rest

def edgeContiguousCoverageEnd (windows : List EdgeCoverage) (requiredStart : ℕ) : ℕ × Bool :=
  contiguousLoop (if requiredStart = 0 then 0 else requiredStart - 1)
    (mergeEdgeCoverageWindows windows)

/-- The change numbers that the windows cover. -/
abbrev Covered : List EdgeCoverage → Set ℕ := covered startSeq endSeq

theorem le_saturatingSucc_iff (w : EdgeCoverage) (n : ℕ) :
    w.startSeq ≤ saturatingSucc n ↔ w.startSeq ≤ n + 1 := by
  have := w.startSeq_le
  rw [saturatingSucc]
  omega

theorem spans : Spans near extend startSeq endSeq where
  near_iff a b := by rw [near, decide_eq_true_eq, le_saturatingSucc_iff]
  lo_join _ _ := rfl
  hi_join _ _ := rfl

theorem mergeLoop_append (merged : List EdgeCoverage) (last : EdgeCoverage)
    (rest : List EdgeCoverage) :
    mergeLoop (merged ++ [last]) rest = merged ++ coalesce near extend last rest := by
  induction rest generalizing merged last with
  | nil => rfl
  | cons current rest ih =>
    rw [mergeLoop, List.getLast?_concat, List.dropLast_concat, coalesce]
    by_cases hnear : near last current
    · simp only [hnear, if_true, ih]
    · simp only [hnear, Bool.false_eq_true, if_false]
      rw [ih, List.append_assoc, List.singleton_append]

theorem pairwise_mergeSort_keyLe (windows : List EdgeCoverage) :
    (windows.mergeSort keyLe).Pairwise (startSeq · ≤ startSeq ·) := by
  refine (@List.pairwise_mergeSort _ keyLe ?_ ?_ windows).imp ?_
  · intro a b c hab hbc
    simp only [keyLe, Bool.or_eq_true, Bool.and_eq_true, decide_eq_true_eq] at hab hbc ⊢
    omega
  · intro a b
    simp only [keyLe, Bool.or_eq_true, Bool.and_eq_true, decide_eq_true_eq]
    omega
  · intro a b hab
    simp only [keyLe, Bool.or_eq_true, Bool.and_eq_true, decide_eq_true_eq] at hab
    omega

theorem contiguousLoop_eq (coveredThrough : ℕ) (windows : List EdgeCoverage) :
    contiguousLoop coveredThrough windows = reach startSeq endSeq coveredThrough windows := by
  induction windows generalizing coveredThrough with
  | nil => rfl
  | cons window rest ih =>
    simp only [contiguousLoop, reach, gt_iff_lt, ih, ← not_le, le_saturatingSucc_iff]

/-- The merged windows are separated, none is empty, and they cover what the windows cover. -/
theorem mergeEdgeCoverageWindows_spec {windows : List EdgeCoverage}
    (hvalid : ∀ w ∈ windows, w.startSeq ≤ w.endSeq) :
    Separated startSeq endSeq (mergeEdgeCoverageWindows windows) ∧
      (∀ w ∈ mergeEdgeCoverageWindows windows, w.startSeq ≤ w.endSeq) ∧
      Covered (mergeEdgeCoverageWindows windows) = Covered windows := by
  have hperm := List.mergeSort_perm windows keyLe
  have hsorted := pairwise_mergeSort_keyLe windows
  replace hvalid : ∀ w ∈ windows.mergeSort keyLe, w.startSeq ≤ w.endSeq :=
    fun w hw => hvalid w (hperm.mem_iff.mp hw)
  rw [mergeEdgeCoverageWindows, Covered, ← covered_perm hperm]
  cases hw : windows.mergeSort keyLe with
  | nil => exact ⟨List.Pairwise.nil, by simp [mergeLoop], rfl⟩
  | cons first rest =>
    rw [hw] at hsorted hvalid
    have hloop : mergeLoop [] (first :: rest) = coalesce near extend first rest :=
      mergeLoop_append [] first rest
    rw [hloop]
    obtain ⟨hsep, hle⟩ := spans.separated_coalesce hsorted hvalid
    exact ⟨hsep, hle, spans.covered_coalesce hsorted hvalid⟩

theorem reaches_edgeContiguousCoverageEnd {windows : List EdgeCoverage}
    (hvalid : ∀ w ∈ windows, w.startSeq ≤ w.endSeq) (requiredStart : ℕ) :
    Reaches (Covered windows) (max requiredStart 1 - 1)
      (edgeContiguousCoverageEnd windows requiredStart) := by
  obtain ⟨hsep, hle, hcovered⟩ := mergeEdgeCoverageWindows_spec hvalid
  have hstart : (if requiredStart = 0 then 0 else requiredStart - 1) =
      max requiredStart 1 - 1 := by split_ifs <;> omega
  rw [edgeContiguousCoverageEnd, contiguousLoop_eq, hstart, ← hcovered]
  exact reaches_reach (hsep.imp fun h => h.1.le) hle _

/-- Merging gives separated windows that cover the same change numbers, and from a required start
on the coverage ends where the first number is missing, with a gap exactly if a number beyond it is
covered. A required start of 0 asks for the first change, whose number is 1. -/
theorem edgeCoverage_exact (windows : List EdgeCoverage)
    (hvalid : ∀ w ∈ windows, w.startSeq ≤ w.endSeq) (requiredStart : ℕ) :
    (mergeEdgeCoverageWindows windows).Pairwise
        (fun a b => a.startSeq < b.startSeq ∧ a.endSeq + 1 < b.startSeq) ∧
      (∀ w ∈ mergeEdgeCoverageWindows windows, w.startSeq ≤ w.endSeq) ∧
      Covered (mergeEdgeCoverageWindows windows) = Covered windows ∧
      IsGreatest {e | max requiredStart 1 ≤ e + 1 ∧
          ∀ n, max requiredStart 1 ≤ n → n ≤ e → n ∈ Covered windows}
        (edgeContiguousCoverageEnd windows requiredStart).1 ∧
      ((edgeContiguousCoverageEnd windows requiredStart).2 = true ↔
        ∃ n ∈ Covered windows, (edgeContiguousCoverageEnd windows requiredStart).1 + 1 < n) := by
  obtain ⟨hsep, hle, hcovered⟩ := mergeEdgeCoverageWindows_spec hvalid
  have hreaches := reaches_edgeContiguousCoverageEnd hvalid requiredStart
  exact ⟨hsep, hle, hcovered, hreaches.isGreatest (le_max_right _ _), hreaches.gap_iff⟩

def sampleCoverage : EdgeCoverage where
  table := ⟨"shop", "orders"⟩
  startSeq := 1
  endSeq := 5
  bundleId := "b1"
  redactionMode := "none"
  updatedAtMs := 7
  startSeq_le := by decide
  endSeq_le := by decide

def laterCoverage : EdgeCoverage where
  table := ⟨"shop", "orders"⟩
  startSeq := 8
  endSeq := 9
  bundleId := "b2"
  redactionMode := "none"
  updatedAtMs := 8
  startSeq_le := by decide
  endSeq_le := by decide

/-- The numbers 6 and 7 are missing between two windows. -/
theorem edgeCoverage_exact_sample :
    edgeContiguousCoverageEnd [laterCoverage, sampleCoverage] 2 = (5, true) ∧
      ∃ n ∈ Covered [laterCoverage, sampleCoverage], 5 + 1 < n := by
  have hend : edgeContiguousCoverageEnd [laterCoverage, sampleCoverage] 2 = (5, true) := by
    have hsort : [laterCoverage, sampleCoverage].mergeSort keyLe =
        [sampleCoverage, laterCoverage] := by
      simp [List.mergeSort, List.MergeSort.Internal.splitInTwo, keyLe, laterCoverage, sampleCoverage]
    rw [edgeContiguousCoverageEnd, mergeEdgeCoverageWindows, hsort]
    decide
  have hexact := edgeCoverage_exact [laterCoverage, sampleCoverage] (by decide) 2
  rw [hend] at hexact
  exact ⟨hend, hexact.2.2.2.2.mp rfl⟩

/-- Nothing covers the number 0, yet the windows from 1 on count from a required start of 0. -/
theorem required_start_zero : ¬ ∀ (windows : List EdgeCoverage) (requiredStart : ℕ),
    (∀ w ∈ windows, w.startSeq ≤ w.endSeq) → requiredStart ∉ Covered windows →
      (edgeContiguousCoverageEnd windows requiredStart).1 = requiredStart - 1 := by
  intro h
  have hzero := h [sampleCoverage] 0 (by decide) (by simp [mem_covered, sampleCoverage])
  rw [edgeContiguousCoverageEnd, mergeEdgeCoverageWindows, List.mergeSort_singleton] at hzero
  exact absurd hzero (by decide)

end EdgeCoverage
end SkeinDB.Changes
