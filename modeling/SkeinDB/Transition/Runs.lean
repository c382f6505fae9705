import Mathlib.Tactic

/-!
# Runs of a transition system

A system takes actions one after another, and an action that is not enabled ends the attempt.
A property of every state of a run, or of every step of it, follows from an invariant that the
steps keep, where each step may have to meet a condition in the state in which it is taken.
-/
namespace SkeinDB.Transition
variable {σ α : Type*}

def run (step : σ → α → Option σ) (s : σ) : List α → Option σ
  | [] => some s
  | a :: as => (step s a).bind fun s' => run step s' as

/-- Every action of a run meets the condition in the state in which it is taken. -/
def Meets (step : σ → α → Option σ) (ok : σ → α → Prop) (s : σ) : List α → Prop
  | [] => True
  | a :: as => ok s a ∧ ∀ s' ∈ step s a, Meets step ok s' as

instance decidableMeets (step : σ → α → Option σ) (ok : σ → α → Prop)
    [∀ s a, Decidable (ok s a)] (s : σ) : (as : List α) → Decidable (Meets step ok s as)
  | [] => isTrue trivial
  | a :: as =>
    match h : step s a with
    | none => decidable_of_iff (ok s a) (by simp [Meets, h])
    | some s' =>
      have := decidableMeets step ok s' as
      decidable_of_iff (ok s a ∧ Meets step ok s' as) (by simp [Meets, h])

/-- A property of every state of a run. -/
def Always (step : σ → α → Option σ) (P : σ → Prop) (s : σ) (as : List α) : Prop :=
  ∀ before after, as = before ++ after → ∀ s', run step s before = some s' → P s'

/-- A property of every step of a run. -/
def EachStep (step : σ → α → Option σ) (Q : σ → α → σ → Prop) (s : σ) (as : List α) : Prop :=
  ∀ before a after, as = before ++ a :: after → ∀ s' s'',
    run step s before = some s' → step s' a = some s'' → Q s' a s''

/-- Steps that meet the condition keep the invariant. -/
def Keeps (step : σ → α → Option σ) (ok : σ → α → Prop) (Inv : σ → Prop) : Prop :=
  ∀ s a s', Inv s → ok s a → step s a = some s' → Inv s'

section Lemmas
variable {step : σ → α → Option σ} {ok : σ → α → Prop} {P Inv : σ → Prop}
  {Q : σ → α → σ → Prop} {s s' : σ} {as before after : List α} {a : α}

@[simp] theorem run_nil : run step s [] = some s := rfl

@[simp] theorem run_cons : run step s (a :: as) = (step s a).bind fun s' => run step s' as := rfl

theorem run_append (before after : List α) :
    run step s (before ++ after) = (run step s before).bind fun s' => run step s' after := by
  induction before generalizing s with
  | nil => rfl
  | cons a before ih =>
    rw [List.cons_append, run_cons, run_cons]
    rcases step s a with _ | s'
    · rfl
    · exact ih

theorem Meets.left (h : Meets step ok s (before ++ after)) : Meets step ok s before := by
  induction before generalizing s with
  | nil => trivial
  | cons a before ih => exact ⟨h.1, fun s' hs' => ih (h.2 s' hs')⟩

theorem Meets.right (h : Meets step ok s (before ++ after)) (hrun : run step s before = some s') :
    Meets step ok s' after := by
  induction before generalizing s with
  | nil =>
    cases hrun
    exact h
  | cons a before ih =>
    obtain ⟨s₁, hstep, hrest⟩ := Option.bind_eq_some_iff.mp hrun
    exact ih (h.2 s₁ hstep) hrest

theorem Meets.append (h : Meets step ok s before) (hrun : run step s before = some s')
    (h' : Meets step ok s' after) : Meets step ok s (before ++ after) := by
  induction before generalizing s with
  | nil =>
    cases hrun
    exact h'
  | cons a before ih =>
    obtain ⟨s₁, hstep, hrest⟩ := Option.bind_eq_some_iff.mp hrun
    refine ⟨h.1, ?_⟩
    intro s₂ hs₂
    cases hstep.symm.trans hs₂
    exact ih (h.2 s₁ hstep) hrest

theorem Keeps.run (hkeeps : Keeps step ok Inv) (hInv : Inv s) (hmeets : Meets step ok s as)
    (hrun : run step s as = some s') : Inv s' := by
  induction as generalizing s with
  | nil =>
    cases hrun
    exact hInv
  | cons a as ih =>
    obtain ⟨s₁, hstep, hrest⟩ := Option.bind_eq_some_iff.mp hrun
    exact ih (hkeeps s a s₁ hInv hmeets.1 hstep) (hmeets.2 s₁ hstep) hrest

/-- What the invariant implies holds in every state of the run. -/
theorem Keeps.always (hkeeps : Keeps step ok Inv) (hInv : Inv s) (hmeets : Meets step ok s as)
    (hP : ∀ s, Inv s → P s) : Always step P s as := by
  rintro before after rfl s' hrun
  exact hP s' (hkeeps.run hInv hmeets.left hrun)

/-- What a step does to a state with the invariant it does in every step of the run. -/
theorem Keeps.eachStep (hkeeps : Keeps step ok Inv) (hInv : Inv s) (hmeets : Meets step ok s as)
    (hQ : ∀ s a s', Inv s → ok s a → step s a = some s' → Q s a s') : EachStep step Q s as := by
  rintro before a after rfl s' s'' hrun hstep
  exact hQ s' a s'' (hkeeps.run hInv hmeets.left hrun) (hmeets.right hrun).1 hstep

end Lemmas

end SkeinDB.Transition
