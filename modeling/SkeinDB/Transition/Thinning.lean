import SkeinDB.Transition.Fallible

/-!
# Scans that pass over items

Two scans run alike where the items of one are those of the other under an injection, and every
further item is passed over.
-/
namespace SkeinDB.Transition
variable {ε σ τ α β γ δ : Type} {ρ : β → α}

/-- The items of the second list are those of the first that `ρ` names, in order. -/
inductive Thins (ρ : β → α) : List α → List β → Prop
  | nil : Thins ρ [] []
  | skip {x xs ys} (passed : x ∉ Set.range ρ) (rest : Thins ρ xs ys) : Thins ρ (x :: xs) ys
  | keep {y xs ys} (rest : Thins ρ xs ys) : Thins ρ (ρ y :: xs) (y :: ys)

theorem Thins.append {xs xs' : List α} {ys ys' : List β} (h : Thins ρ xs ys)
    (h' : Thins ρ xs' ys') : Thins ρ (xs ++ xs') (ys ++ ys') := by
  induction h with
  | nil => exact h'
  | skip passed _ ih => exact .skip passed ih
  | keep _ ih => exact .keep ih

theorem Thins.filterMap_eq {xs : List α} {ys : List β} (h : Thins ρ xs ys) {f : α → Option γ}
    {g : β → Option γ} (hskip : ∀ x ∉ Set.range ρ, f x = none) (hkeep : ∀ y, f (ρ y) = g y) :
    xs.filterMap f = ys.filterMap g := by
  induction h with
  | nil => rfl
  | skip passed _ ih => rw [List.filterMap_cons_none (hskip _ passed), ih]
  | keep _ ih => rw [List.filterMap_cons, List.filterMap_cons, hkeep, ih]

/-- An increasing map thins an interval to the interval of what it maps there. -/
theorem thins_range {ρ : ℕ → ℕ} (hmono : StrictMono ρ) (n : ℕ) :
    ∃ m, Thins ρ (List.range n) (List.range m) ∧ ∀ i, i < m ↔ ρ i < n := by
  induction n with
  | zero => exact ⟨0, .nil, fun i => by omega⟩
  | succ n ih =>
    obtain ⟨m, hthins, hm⟩ := ih
    rw [List.range_succ]
    by_cases hn : n ∈ Set.range ρ
    · obtain ⟨i, rfl⟩ := hn
      have hi : i = m := by
        have hge : ¬ i < m := fun hlt => Nat.lt_irrefl _ ((hm i).mp hlt)
        have hle : ¬ m < i := fun hlt => Nat.lt_irrefl m ((hm m).mpr (hmono hlt))
        omega
      subst hi
      refine ⟨i + 1, ?_, fun j => ?_⟩
      · rw [List.range_succ]
        exact hthins.append (.keep .nil)
      · rw [Nat.lt_succ_iff, Nat.lt_succ_iff, hmono.le_iff_le]
    · refine ⟨m, ?_, fun i => ?_⟩
      · have happend := hthins.append (.skip hn .nil)
        rwa [List.append_nil] at happend
      · rw [hm, Nat.lt_succ_iff, Nat.le_iff_lt_or_eq]
        exact ⟨.inl, fun hle => hle.resolve_right fun heq => hn ⟨i, heq⟩⟩

/-- The positions of the items that a filter takes, and one for every position behind them. -/
theorem exists_filter_positions (p : α → Bool) (xs : List α) : ∃ ρ : ℕ → ℕ, StrictMono ρ ∧
    (∀ n, ρ ((xs.filter p).length + n) = xs.length + n) ∧
    (∀ i, xs[ρ i]? = (xs.filter p)[i]?) ∧
    ∀ j ∉ Set.range ρ, ∀ x ∈ xs[j]?, p x = false := by
  induction xs with
  | nil => exact ⟨id, strictMono_id, fun n => rfl, fun _ => rfl, fun j hj => absurd ⟨j, rfl⟩ hj⟩
  | cons x xs ih =>
    obtain ⟨ρ, hmono, hbeyond, hitems, hpassed⟩ := ih
    cases hp : p x
    · rw [List.filter_cons_of_neg (by simp [hp])]
      refine ⟨fun i => ρ i + 1, fun i j hij => Nat.succ_lt_succ (hmono hij), fun n => ?_, hitems,
        fun j hj => ?_⟩
      · rw [List.length_cons, Nat.add_right_comm]
        exact congrArg (· + 1) (hbeyond n)
      · rcases j with _ | j
        · intro y hy
          cases hy
          exact hp
        · apply hpassed j
          rintro ⟨i, hi⟩
          exact hj ⟨i, congrArg (· + 1) hi⟩
    · rw [List.filter_cons_of_pos hp]
      refine ⟨fun i => i.casesOn 0 fun i => ρ i + 1, ?_, fun n => ?_, fun i => ?_, fun j hj => ?_⟩
      · intro i j hij
        rcases i with _ | i <;> rcases j with _ | j
        · exact absurd hij (Nat.lt_irrefl 0)
        · exact Nat.succ_pos _
        · exact absurd hij (Nat.not_lt_zero _)
        · exact Nat.succ_lt_succ (hmono (Nat.lt_of_succ_lt_succ hij))
      · rw [List.length_cons, List.length_cons, Nat.add_right_comm]
        exact (congrArg (· + 1) (hbeyond n)).trans (Nat.add_right_comm _ _ _)
      · rcases i with _ | i
        · rfl
        · exact hitems i
      · rcases j with _ | j
        · exact absurd ⟨0, rfl⟩ hj
        · apply hpassed j
          rintro ⟨i, hi⟩
          exact hj ⟨i + 1, congrArg (· + 1) hi⟩

theorem thins_range_of_eq {ρ : ℕ → ℕ} (hmono : StrictMono ρ) {n m : ℕ} (hend : ρ m = n) :
    Thins ρ (List.range n) (List.range m) := by
  obtain ⟨m', hthins, hm'⟩ := thins_range hmono n
  have hge : ¬ m < m' := fun hlt => Nat.lt_irrefl n (hend ▸ (hm' m).mp hlt)
  have hle : ¬ m' < m := fun hlt => Nat.lt_irrefl m' ((hm' m').mpr (hend ▸ hmono hlt))
  rwa [show m' = m by omega] at hthins

/-- Both scans find as many items, and end alike. -/
theorem SameRun.scan {visit : α → EStateM ε σ (Option γ)} {visit' : β → EStateM ε τ (Option δ)}
    {R : σ → τ → Prop}
    (hskip : ∀ x ∉ Set.range ρ, ∀ s t, R s t → ∃ s', visit x s = .ok none s' ∧ R s' t)
    (hkeep : ∀ y s t, R s t →
      SameRun R (fun a b => a.isSome = b.isSome) (visit (ρ y) s) (visit' y t))
    (limit : Option ℕ) {xs : List α} {ys : List β} (h : Thins ρ xs ys) {done : List γ}
    {done' : List δ} (hdone : done.length = done'.length) {s : σ} {t : τ} (hst : R s t) :
    SameRun R (fun a b => a.length = b.length) (Transition.scan visit limit xs done s)
      (Transition.scan visit' limit ys done' t) := by
  induction h generalizing done done' s t with
  | nil => exact .ok hdone hst
  | skip passed _ ih =>
    obtain ⟨s', hvisit, hs'⟩ := hskip _ passed s t hst
    rw [Transition.scan, bind_of_ok hvisit]
    exact ih hdone hs'
  | keep _ ih =>
    rw [Transition.scan, Transition.scan]
    refine (hkeep _ s t hst).bind fun found found' s t hfound hst => ?_
    rcases found with _ | a <;> rcases found' with _ | b
    · exact ih hdone hst
    · cases hfound
    · cases hfound
    · have hlength : (done ++ [a]).length = (done' ++ [b]).length := by
        rw [List.length_append, List.length_append, hdone]
        rfl
      dsimp only
      rw [hlength]
      split
      · exact .ok hlength hst
      · exact ih hlength hst

end SkeinDB.Transition
