import Mathlib.Data.List.Perm.Basic
import Mathlib.Data.List.ReduceOption
import Mathlib.Tactic

/-!
# Gathering through a list of positions

Every element of a list contributes a result, contributes nothing or fails. What is gathered from
the elements at some positions is compared with what is gathered from the whole list: it is the same
where the positions leave out only elements that contribute nothing.
-/
namespace SkeinDB.Search
variable {α β ε : Type*}

/-- The results in the order of the elements, or the first failure. -/
def gather (f : α → Except ε (Option β)) (xs : List α) : Except ε (List β) :=
  (xs.mapM f).map List.reduceOption

/-- Two outcomes with the same results, in whatever order, or two failures. -/
def SameOutcome (x y : Except ε (List β)) : Prop :=
  (∃ as bs, x = .ok as ∧ y = .ok bs ∧ as.Perm bs) ∨ ∃ e e', x = .error e ∧ y = .error e'

section Gather
variable {f : α → Except ε (Option β)} {x y z : Except ε (List β)} {xs ys : List α}

theorem SameOutcome.refl (x : Except ε (List β)) : SameOutcome x x := by
  rcases x with e | as
  · exact .inr ⟨e, e, rfl, rfl⟩
  · exact .inl ⟨as, as, rfl, rfl, .refl as⟩

theorem SameOutcome.trans (h : SameOutcome x y) (h' : SameOutcome y z) : SameOutcome x z := by
  rcases h with ⟨as, bs, rfl, rfl, hperm⟩ | ⟨e, e', rfl, rfl⟩
  · rcases h' with ⟨as', cs, has, rfl, hperm'⟩ | ⟨_, _, herr, -⟩
    · cases has
      exact .inl ⟨as, cs, rfl, rfl, hperm.trans hperm'⟩
    · cases herr
  · rcases h' with ⟨_, _, hok, -⟩ | ⟨_, e'', -, rfl⟩
    · cases hok
    · exact .inr ⟨e, e'', rfl, rfl⟩

@[simp] theorem gather_nil : gather f [] = .ok [] := rfl

/-- What an element adds to the results of those behind it. -/
def addResult : Except ε (Option β) → Except ε (List β) → Except ε (List β)
  | .error e, _ => .error e
  | .ok none, rest => rest
  | .ok (some b), rest => rest.map (b :: ·)

theorem gather_cons (a : α) : gather f (a :: xs) = addResult (f a) (gather f xs) := by
  rw [gather, gather, List.mapM_cons]
  rcases f a with e | _ | b
  · rfl
  · rcases xs.mapM f with e | rs <;> rfl
  · rcases xs.mapM f with e | rs <;> rfl

theorem SameOutcome.addResult (h : SameOutcome x y) (r : Except ε (Option β)) :
    SameOutcome (addResult r x) (addResult r y) := by
  rcases r with e | _ | b
  · exact .refl _
  · exact h
  · rcases h with ⟨as, bs, rfl, rfl, hperm⟩ | ⟨e, e', rfl, rfl⟩
    · exact .inl ⟨_, _, rfl, rfl, hperm.cons b⟩
    · exact .inr ⟨e, e', rfl, rfl⟩

theorem addResult_comm (r r' : Except ε (Option β)) (x : Except ε (List β)) :
    SameOutcome (Search.addResult r (Search.addResult r' x))
      (Search.addResult r' (Search.addResult r x)) := by
  rcases r with e | _ | b <;> rcases r' with e' | _ | b' <;> rcases x with e'' | rs <;>
    first
      | exact .refl _
      | exact .inr ⟨_, _, rfl, rfl⟩
      | exact .inl ⟨_, _, rfl, rfl, .swap _ _ _⟩

theorem mem_of_gather {bs : List β} {b : β} (xs : List α) (h : gather f xs = .ok bs)
    (hb : b ∈ bs) : ∃ a ∈ xs, f a = .ok (some b) := by
  induction xs generalizing bs with
  | nil =>
    cases h
    exact absurd hb List.not_mem_nil
  | cons a xs ih =>
    rw [gather_cons] at h
    rcases hf : f a with e | _ | b' <;> rw [hf] at h
    · cases h
    · obtain ⟨a', ha', hb⟩ := ih h hb
      exact ⟨a', List.mem_cons_of_mem _ ha', hb⟩
    · rcases hrest : gather f xs with e | rest <;> rw [hrest] at h <;> cases h
      rcases List.mem_cons.mp hb with rfl | hb
      · exact ⟨a, List.mem_cons_self, hf⟩
      · obtain ⟨a', ha', hb⟩ := ih hrest hb
        exact ⟨a', List.mem_cons_of_mem _ ha', hb⟩

/-- Elements that contribute nothing can be left out. -/
theorem gather_filter (p : α → Bool) (xs : List α) (h : ∀ a ∈ xs, p a = false → f a = .ok none) :
    gather f (xs.filter p) = gather f xs := by
  induction xs with
  | nil => rfl
  | cons a xs ih =>
    have ih := ih fun b hb => h b (List.mem_cons_of_mem _ hb)
    rcases hp : p a with _ | _
    · rw [List.filter_cons_of_neg (by rw [hp]; exact Bool.false_ne_true), gather_cons,
        h a List.mem_cons_self hp]
      exact ih
    · rw [List.filter_cons_of_pos hp, gather_cons, gather_cons, ih]

/-- The order of the elements does not matter to what is gathered. -/
theorem gather_perm (h : xs.Perm ys) : SameOutcome (gather f xs) (gather f ys) := by
  induction h with
  | nil => exact .refl _
  | cons a _ ih =>
    rw [gather_cons, gather_cons]
    exact ih.addResult (f a)
  | swap a b xs =>
    rw [gather_cons, gather_cons, gather_cons, gather_cons]
    exact addResult_comm _ _ _
  | trans _ _ ih ih' => exact ih.trans ih'

end Gather

section Positions
variable {f : α → Except ε (Option β)} (rows : List α)

/-- The contribution of a position, which is none outside of the list. -/
def atPosition (f : α → Except ε (Option β)) (rows : List α) (i : ℕ) : Except ε (Option β) :=
  (rows[i]?).elim (.ok none) f

theorem gather_positions (positions : List ℕ) :
    gather f (positions.filterMap (rows[·]?)) = gather (atPosition f rows) positions := by
  induction positions with
  | nil => rfl
  | cons i positions ih =>
    rw [gather_cons, List.filterMap_cons, atPosition]
    rcases rows[i]? with _ | a
    · exact ih
    · rw [gather_cons, ih]
      rfl

theorem gather_range : gather f rows = gather (atPosition f rows) (List.range rows.length) := by
  induction rows with
  | nil => rfl
  | cons a rows ih =>
    rw [gather_cons, List.length_cons, List.range_succ_eq_map, gather_cons, ih, gather, gather,
      List.mapM_map]
    rfl

variable {rows} {positions : List ℕ}

/-- The positions that leave out only elements that contribute nothing, in ascending order. -/
theorem gather_ascending
    (hskip : ∀ i (hi : i < rows.length), i ∉ positions → f (rows.get ⟨i, hi⟩) = .ok none) :
    gather (atPosition f rows) ((List.range rows.length).filter (· ∈ positions)) =
      gather f rows := by
  rw [gather_range rows]
  apply gather_filter
  intro i hi hmem
  have hlt := List.mem_range.mp hi
  rw [atPosition, List.getElem?_eq_getElem hlt]
  exact hskip i hlt (of_decide_eq_false hmem)

theorem perm_ascending (hnodup : positions.Nodup) (hlt : ∀ i ∈ positions, i < rows.length) :
    positions.Perm ((List.range rows.length).filter (· ∈ positions)) := by
  rw [List.perm_ext_iff_of_nodup hnodup (List.nodup_range.filter _)]
  intro i
  rw [List.mem_filter, List.mem_range, decide_eq_true_eq]
  exact ⟨fun h => ⟨hlt i h, h⟩, And.right⟩

theorem gather_positions_same (hnodup : positions.Nodup)
    (hlt : ∀ i ∈ positions, i < rows.length)
    (hskip : ∀ i (hi : i < rows.length), i ∉ positions → f (rows.get ⟨i, hi⟩) = .ok none) :
    SameOutcome (gather f (positions.filterMap (rows[·]?))) (gather f rows) := by
  rw [gather_positions, ← gather_ascending hskip]
  exact gather_perm (perm_ascending hnodup hlt)

theorem gather_positions_eq (hsorted : positions.Pairwise (· < ·))
    (hlt : ∀ i ∈ positions, i < rows.length)
    (hskip : ∀ i (hi : i < rows.length), i ∉ positions → f (rows.get ⟨i, hi⟩) = .ok none) :
    gather f (positions.filterMap (rows[·]?)) = gather f rows := by
  have hperm := perm_ascending (hsorted.imp Nat.ne_of_lt) hlt
  have heq : positions = (List.range rows.length).filter (· ∈ positions) :=
    hperm.eq_of_pairwise (fun a b _ _ hab hba => absurd hab (Nat.lt_asymm hba)) hsorted
      (List.pairwise_lt_range.filter _)
  rw [gather_positions, ← gather_ascending hskip]
  exact congrArg (gather (atPosition f rows)) heq

end Positions

end SkeinDB.Search
