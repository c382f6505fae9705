import Mathlib.Data.List.GetD
import Mathlib.Data.List.Sort
import Mathlib.Order.Bounds.Basic
import Mathlib.Tactic

/-!
# The k-th greatest of a list

The k-th greatest element of a list, counted with repetition, is the greatest bound that at least
k elements reach. What a list reaches depends on its elements alone and grows with them.
-/
namespace SkeinDB.Consensus
variable {α : Type*} [LinearOrder α]

/-- The bounds that at least `k` elements reach. -/
def reachedBy (k : ℕ) (l : List α) : Set α := {p | k ≤ l.countP (p ≤ ·)}

theorem mem_reachedBy {k : ℕ} {l : List α} {p : α} :
    p ∈ reachedBy k l ↔ k ≤ l.countP (p ≤ ·) := Iff.rfl

theorem reachedBy_perm {k : ℕ} {l l' : List α} (h : l.Perm l') : reachedBy k l = reachedBy k l' := by
  ext p
  rw [mem_reachedBy, mem_reachedBy, h.countP_eq]

theorem countP_le_of_forall₂ {l l' : List α} (h : List.Forall₂ (· ≤ ·) l l') (p : α) :
    l.countP (p ≤ ·) ≤ l'.countP (p ≤ ·) := by
  induction h with
  | nil => rfl
  | @cons a b l l' hab _ ih =>
    rw [List.countP_cons, List.countP_cons]
    refine Nat.add_le_add ih ?_
    split_ifs with ha hb <;> simp only [decide_eq_true_eq] at *
    · exact le_rfl
    · exact absurd (ha.trans hab) hb
    · exact Nat.zero_le _
    · exact le_rfl

theorem reachedBy_mono {k : ℕ} {l l' : List α} (h : List.Forall₂ (· ≤ ·) l l') :
    reachedBy k l ⊆ reachedBy k l' := fun p hp => hp.trans (countP_le_of_forall₂ h p)

section Sorted
variable {l : List α} (hl : l.Pairwise (· ≥ ·)) {i : ℕ} (hi : i < l.length)
include hl

/-- The elements up to an index of a descending list reach the one there. -/
theorem getElem_mem_reachedBy : l[i] ∈ reachedBy (i + 1) l := by
  rw [mem_reachedBy]
  have htake : (l.take (i + 1)).countP (l[i] ≤ ·) = i + 1 := by
    rw [List.countP_eq_length.mpr, List.length_take_of_le hi]
    intro a ha
    obtain ⟨j, hj, rfl⟩ := List.getElem_of_mem ha
    rw [List.length_take_of_le hi] at hj
    rw [List.getElem_take, decide_eq_true_eq]
    rcases Nat.lt_or_ge j i with hlt | hge
    · exact List.pairwise_iff_getElem.mp hl j i (hlt.trans hi) hi hlt
    · obtain rfl : j = i := by omega
      exact le_rfl
  exact htake.ge.trans (List.take_sublist _ _).countP_le

/-- No element from an index of a descending list on reaches a bound above the one there. -/
theorem le_getElem_of_mem_reachedBy {p : α} (hp : p ∈ reachedBy (i + 1) l) : p ≤ l[i] := by
  by_contra hlt
  push Not at hlt
  have hdrop : (l.drop i).countP (p ≤ ·) = 0 := by
    rw [List.countP_eq_zero]
    intro a ha
    obtain ⟨j, hj, rfl⟩ := List.getElem_of_mem ha
    rw [List.length_drop] at hj
    rw [List.getElem_drop, decide_eq_true_eq, not_le]
    refine lt_of_le_of_lt ?_ hlt
    rcases Nat.eq_zero_or_pos j with rfl | hpos
    · exact le_rfl
    · exact List.pairwise_iff_getElem.mp hl i (i + j) hi (by omega) (by omega)
  have hcount : l.countP (p ≤ ·) ≤ i := by
    calc l.countP (p ≤ ·) = (l.take i ++ l.drop i).countP (p ≤ ·) := by
          rw [List.take_append_drop]
      _ = (l.take i).countP (p ≤ ·) := by rw [List.countP_append, hdrop, add_zero]
      _ ≤ (l.take i).length := List.countP_le_length
      _ ≤ i := List.length_take_le _ _
  rw [mem_reachedBy] at hp
  omega

theorem isGreatest_getElem : IsGreatest (reachedBy (i + 1) l) l[i] :=
  ⟨getElem_mem_reachedBy hl hi, fun _ hp => le_getElem_of_mem_reachedBy hl hi hp⟩

end Sorted

/-- Sorting downwards puts the greatest bound that `k` elements reach at index `k - 1`. -/
theorem isGreatest_getD_insertionSort {k : ℕ} {l : List α} (hk : 0 < k) (hl : k ≤ l.length)
    (d : α) : IsGreatest (reachedBy k l) ((l.insertionSort (· ≥ ·)).getD (k - 1) d) := by
  have hi : k - 1 < (l.insertionSort (· ≥ ·)).length := by
    rw [List.length_insertionSort]
    omega
  have hgreatest := isGreatest_getElem (List.pairwise_insertionSort (· ≥ ·) l) hi
  rw [Nat.sub_add_cancel hk, reachedBy_perm (List.perm_insertionSort _ l)] at hgreatest
  rwa [List.getD_eq_getElem _ _ hi]

end SkeinDB.Consensus
