import Mathlib.Order.Bounds.Basic
import Mathlib.Tactic

/-!
# Unions of windows

Windows are the closed intervals of natural numbers between two ends. A list of windows in the
order of their starts is coalesced in one pass, which joins a window to the one before it whenever
the two overlap or touch, and a second pass finds how far the union reaches without a hole.
-/
namespace SkeinDB.Search
variable {α : Type*} {lo hi : α → ℕ}

/-- The numbers that some window of the list covers. -/
def covered (lo hi : α → ℕ) (l : List α) : Set ℕ := {n | ∃ a ∈ l, lo a ≤ n ∧ n ≤ hi a}

theorem mem_covered {l : List α} {n : ℕ} :
    n ∈ covered lo hi l ↔ ∃ a ∈ l, lo a ≤ n ∧ n ≤ hi a := Iff.rfl

theorem mem_covered_cons {a : α} {l : List α} {n : ℕ} :
    n ∈ covered lo hi (a :: l) ↔ (lo a ≤ n ∧ n ≤ hi a) ∨ n ∈ covered lo hi l := by
  simp only [mem_covered, List.mem_cons, exists_eq_or_imp]

theorem not_mem_covered_nil (n : ℕ) : n ∉ covered lo hi [] := by
  rintro ⟨a, ha, -⟩
  exact List.not_mem_nil ha

theorem covered_perm {l l' : List α} (h : l.Perm l') : covered lo hi l = covered lo hi l' := by
  ext n
  simp only [mem_covered, h.mem_iff]

/-- Each window ends before the next starts, with at least one number between them. -/
def Separated (lo hi : α → ℕ) (l : List α) : Prop :=
  l.Pairwise fun a b => lo a < lo b ∧ hi a + 1 < lo b

section Coalesce
variable (near : α → α → Bool) (join : α → α → α)

/-- One pass over a list, which joins each element to the one before it if it is near. -/
def coalesce : α → List α → List α
  | a, [] => [a]
  | a, b :: l => if near a b then coalesce (join a b) l else a :: coalesce b l

/-- Nearness is overlap or adjacency, and a join spans both of its windows. -/
structure Spans (lo hi : α → ℕ) : Prop where
  near_iff : ∀ a b, near a b ↔ lo b ≤ hi a + 1
  lo_join : ∀ a b, lo (join a b) = min (lo a) (lo b)
  hi_join : ∀ a b, hi (join a b) = max (hi a) (hi b)

variable {near join} (hspans : Spans near join lo hi)
include hspans

theorem Spans.lo_join_of_le {a b : α} (hab : lo a ≤ lo b) : lo (join a b) = lo a := by
  rw [hspans.lo_join, min_eq_left hab]

theorem Spans.lo_le_hi_join {a b : α} (ha : lo a ≤ hi a) : lo (join a b) ≤ hi (join a b) := by
  rw [hspans.lo_join, hspans.hi_join]
  exact (min_le_left _ _).trans (ha.trans (le_max_left _ _))

theorem Spans.mem_join_iff {a b : α} (hab : lo a ≤ lo b) (hnear : near a b) (n : ℕ) :
    (lo (join a b) ≤ n ∧ n ≤ hi (join a b)) ↔
      (lo a ≤ n ∧ n ≤ hi a) ∨ (lo b ≤ n ∧ n ≤ hi b) := by
  have hb := (hspans.near_iff a b).mp hnear
  rw [hspans.lo_join_of_le hab, hspans.hi_join]
  omega

theorem Spans.covered_coalesce {a : α} {l : List α} (hlo : (a :: l).Pairwise (lo · ≤ lo ·))
    (hvalid : ∀ b ∈ a :: l, lo b ≤ hi b) :
    covered lo hi (coalesce near join a l) = covered lo hi (a :: l) := by
  induction l generalizing a with
  | nil => rfl
  | cons b l ih =>
    have hab := List.rel_of_pairwise_cons hlo (by simp : b ∈ b :: l)
    have ha := hvalid a (by simp)
    rw [coalesce]
    split_ifs with hnear
    · have hjoin := hspans.lo_join_of_le hab
      rw [ih (List.pairwise_cons.mpr ⟨fun c hc => hjoin.le.trans
          (List.rel_of_pairwise_cons hlo (by simp [hc])), hlo.of_cons.of_cons⟩)
        (List.forall_mem_cons.mpr ⟨hspans.lo_le_hi_join ha,
          fun c hc => hvalid c (by simp [hc])⟩)]
      ext n
      rw [mem_covered_cons, mem_covered_cons, mem_covered_cons,
        hspans.mem_join_iff hab hnear, or_assoc]
    · ext n
      rw [mem_covered_cons, ih hlo.of_cons fun c hc => hvalid c (by simp [hc]),
        mem_covered_cons (a := a)]

theorem Spans.lo_le_of_mem_coalesce {a : α} {l : List α} (hlo : (a :: l).Pairwise (lo · ≤ lo ·))
    {w : α} (hw : w ∈ coalesce near join a l) : lo a ≤ lo w := by
  induction l generalizing a with
  | nil => rw [List.mem_singleton.mp hw]
  | cons b l ih =>
    have hab := List.rel_of_pairwise_cons hlo (by simp : b ∈ b :: l)
    have hjoin := hspans.lo_join_of_le hab
    rw [coalesce] at hw
    split_ifs at hw with hnear
    · refine hjoin.ge.trans (ih (List.pairwise_cons.mpr ⟨fun c hc => ?_, hlo.of_cons.of_cons⟩) hw)
      exact hjoin.le.trans (List.rel_of_pairwise_cons hlo (by simp [hc]))
    · rcases List.mem_cons.mp hw with rfl | hw
      · exact le_rfl
      · exact hab.trans (ih hlo.of_cons hw)

theorem Spans.separated_coalesce {a : α} {l : List α} (hlo : (a :: l).Pairwise (lo · ≤ lo ·))
    (hvalid : ∀ b ∈ a :: l, lo b ≤ hi b) :
    Separated lo hi (coalesce near join a l) ∧
      ∀ w ∈ coalesce near join a l, lo w ≤ hi w := by
  induction l generalizing a with
  | nil => exact ⟨List.pairwise_singleton _ _, hvalid⟩
  | cons b l ih =>
    have hab := List.rel_of_pairwise_cons hlo (by simp : b ∈ b :: l)
    have ha := hvalid a (by simp)
    have hjoin := hspans.lo_join_of_le hab
    rw [coalesce]
    split_ifs with hnear
    · refine ih (List.pairwise_cons.mpr ⟨fun c hc => ?_, hlo.of_cons.of_cons⟩)
        (List.forall_mem_cons.mpr ⟨hspans.lo_le_hi_join ha, fun c hc => hvalid c (by simp [hc])⟩)
      exact hjoin.le.trans (List.rel_of_pairwise_cons hlo (by simp [hc]))
    · obtain ⟨hsep, hle⟩ := ih hlo.of_cons fun c hc => hvalid c (by simp [hc])
      -- `b` starts beyond the end of `a`, and all that is left starts no earlier than `b`
      have hgap : hi a + 1 < lo b := by
        rw [hspans.near_iff] at hnear
        omega
      refine ⟨List.pairwise_cons.mpr ⟨fun w hw => ?_, hsep⟩, List.forall_mem_cons.mpr ⟨ha, hle⟩⟩
      have hw := hspans.lo_le_of_mem_coalesce hlo.of_cons hw
      omega

end Coalesce

/-- How far the windows reach from a number on without a hole, and whether one lies beyond. -/
def reach (lo hi : α → ℕ) : ℕ → List α → ℕ × Bool
  | e, [] => (e, false)
  | e, a :: l =>
    if hi a ≤ e then reach lo hi e l
    else if e + 1 < lo a then (e, true)
    else reach lo hi (max e (hi a)) l

/-- What the answer of `reach` says about the numbers after the one it starts at. -/
structure Reaches (c : Set ℕ) (e : ℕ) (answer : ℕ × Bool) : Prop where
  le : e ≤ answer.1
  covers : ∀ n, e < n → n ≤ answer.1 → n ∈ c
  stops : answer.1 + 1 ∉ c
  gap_iff : answer.2 ↔ ∃ n ∈ c, answer.1 + 1 < n

theorem Reaches.of_cons_le {a : α} {l : List α} {e e' : ℕ} {answer : ℕ × Bool}
    (h : Reaches (covered lo hi l) e' answer) (hle : e ≤ e') (hend : hi a ≤ e')
    (hstart : e < e' → lo a ≤ e + 1 ∧ hi a = e') :
    Reaches (covered lo hi (a :: l)) e answer where
  le := hle.trans h.le
  covers n hn hle' := by
    rw [mem_covered_cons]
    rcases Nat.lt_or_ge e' n with hlt | hge
    · exact Or.inr (h.covers n hlt hle')
    · have := hstart (hn.trans_le hge)
      exact Or.inl (by omega)
  stops := by
    have := h.le
    rw [mem_covered_cons]
    rintro (ha | ha)
    · omega
    · exact h.stops ha
  gap_iff := by
    have hanswer := h.le
    rw [h.gap_iff]
    refine exists_congr fun n => and_congr_left fun hn => ?_
    rw [mem_covered_cons]
    refine ⟨Or.inr, fun hc => hc.resolve_left ?_⟩
    omega

theorem reaches_reach {l : List α} (hlo : l.Pairwise (lo · ≤ lo ·)) (hvalid : ∀ a ∈ l, lo a ≤ hi a)
    (e : ℕ) : Reaches (covered lo hi l) e (reach lo hi e l) := by
  induction l generalizing e with
  | nil =>
    refine ⟨le_rfl, fun n hn hle => absurd hn (not_lt.mpr hle), not_mem_covered_nil _, ?_⟩
    simp [reach, mem_covered]
  | cons a l ih =>
    have ih := ih hlo.of_cons fun b hb => hvalid b (by simp [hb])
    have ha := hvalid a (by simp)
    rw [reach]
    split_ifs with hend hhole
    · exact (ih e).of_cons_le le_rfl hend fun h => absurd h (lt_irrefl e)
    · -- every window starts beyond the hole after `e`
      refine ⟨le_rfl, fun n hn hle => absurd hn (not_lt.mpr hle), ?_, ?_⟩
      · rintro ⟨b, hb, hstart, -⟩
        have : lo a ≤ lo b := by
          rcases List.mem_cons.mp hb with rfl | hb
          · exact le_rfl
          · exact List.rel_of_pairwise_cons hlo hb
        omega
      · exact iff_of_true rfl ⟨lo a, ⟨a, by simp, le_rfl, ha⟩, hhole⟩
    · exact (ih _).of_cons_le (le_max_left _ _) (le_max_right _ _) fun _ => by omega

/-- The numbers up to which everything from a positive start on is covered have `reach` as their
greatest. -/
theorem Reaches.isGreatest {c : Set ℕ} {s : ℕ} {answer : ℕ × Bool} (hs : 1 ≤ s)
    (h : Reaches c (s - 1) answer) :
    IsGreatest {e | s ≤ e + 1 ∧ ∀ n, s ≤ n → n ≤ e → n ∈ c} answer.1 := by
  have hle := h.le
  refine ⟨⟨by omega, fun n hn hle' => h.covers n (by omega) hle'⟩, fun e he => ?_⟩
  by_contra hlt
  exact h.stops (he.2 (answer.1 + 1) (by omega) (by omega))

end SkeinDB.Search
