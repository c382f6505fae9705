import Mathlib.Tactic

/-!
# Fallible updates

An update works on a state and ends with a value or is refused. What it has written before it
is refused stays written, so a refusal leaves the state alone only where nothing was written
before it.
-/
namespace SkeinDB.Transition
variable {ε σ τ α β : Type}

/-- The state an update leaves, whether it ends or is refused. -/
def final : EStateM.Result ε σ α → σ
  | .ok _ s => s
  | .error _ s => s

@[simp] theorem final_ok (a : α) (s : σ) : final (.ok a s : EStateM.Result ε σ α) = s := rfl

@[simp] theorem final_error (e : ε) (s : σ) : final (.error e s : EStateM.Result ε σ α) = s := rfl

/-- What holds before the update holds after it, however it ends. -/
def Preserves (P : σ → Prop) (m : EStateM ε σ α) : Prop := ∀ s, P s → P (final (m s))

/-- Run an update of a part of the state. What it leaves there is put back in both cases. -/
def zoom (get : σ → τ) (put : τ → σ → σ) (m : EStateM ε τ α) : EStateM ε σ α := fun s =>
  match m (get s) with
  | .ok a t => .ok a (put t s)
  | .error e t => .error e (put t s)

/-- Take the items one after another and stop after `limit` of them. An item that is passed
over yields nothing. -/
def scan (visit : α → EStateM ε σ (Option β)) (limit : Option ℕ) :
    List α → List β → EStateM ε σ (List β)
  | [], done => pure done
  | a :: as, done => do
    match ← visit a with
    | none => scan visit limit as done
    | some b =>
      let done := done ++ [b]
      if limit.any (· ≤ done.length) then pure done else scan visit limit as done

section Bind
variable {m : EStateM ε σ α} {f : α → EStateM ε σ β} {s s' : σ} {e : ε} {b : β}
  {P : σ → Prop}

theorem bind_of_ok {a : α} {t : σ} (h : m s = .ok a t) : (m >>= f) s = f a t := by
  change EStateM.bind m f s = _
  rw [EStateM.bind, h]

theorem bind_of_error (h : m s = .error e s') : (m >>= f) s = .error e s' := by
  change EStateM.bind m f s = _
  rw [EStateM.bind, h]

theorem bind_error : (m >>= f) s = .error e s' ↔
    m s = .error e s' ∨ ∃ a s₁, m s = .ok a s₁ ∧ f a s₁ = .error e s' := by
  rcases hm : m s with ⟨a, s₁⟩ | ⟨e', s₁⟩
  · rw [bind_of_ok hm]
    simp
  · rw [bind_of_error hm]
    simp

theorem bind_ok : (m >>= f) s = .ok b s' ↔ ∃ a s₁, m s = .ok a s₁ ∧ f a s₁ = .ok b s' := by
  rcases hm : m s with ⟨a, s₁⟩ | ⟨e', s₁⟩
  · rw [bind_of_ok hm]
    simp
  · rw [bind_of_error hm]
    simp

theorem final_bind : final ((m >>= f) s) = final (m s) ∨
    ∃ a s₁, m s = .ok a s₁ ∧ final ((m >>= f) s) = final (f a s₁) := by
  rcases hm : m s with ⟨a, s₁⟩ | ⟨e', s₁⟩
  · exact .inr ⟨a, s₁, rfl, congrArg final (bind_of_ok hm)⟩
  · exact .inl (congrArg final (bind_of_error hm))

/-- What holds after the first of two updates holds after both. -/
theorem final_bind_of (h : P (final (m s))) (hf : ∀ a, Preserves P (f a)) :
    P (final ((m >>= f) s)) := by
  rcases final_bind (m := m) (f := f) (s := s) with hfinal | ⟨a, s₁, hok, hfinal⟩
  · rw [hfinal]
    exact h
  · rw [hfinal]
    rw [hok] at h
    exact hf a s₁ h

theorem Preserves.bind (hm : Preserves P m) (hf : ∀ a, Preserves P (f a)) :
    Preserves P (m >>= f) :=
  fun s hs => final_bind_of (hm s hs) hf

/-- The second of two updates runs only where the first ends. -/
theorem Preserves.bind_ok (hm : Preserves P m)
    (hf : ∀ a s s', m s = .ok a s' → Preserves P (f a)) : Preserves P (m >>= f) := by
  intro s hs
  have hfinal := hm s hs
  rcases hrun : m s with ⟨a, s₁⟩ | ⟨e, s₁⟩
  · rw [bind_of_ok hrun]
    rw [hrun] at hfinal
    exact hf a s s₁ hrun s₁ hfinal
  · rw [bind_of_error hrun]
    rw [hrun] at hfinal
    exact hfinal

theorem bind_congr {m' : EStateM ε σ α} {f' : α → EStateM ε σ β} (hm : m s = m' s)
    (hf : ∀ a s', m s = .ok a s' → f a s' = f' a s') : (m >>= f) s = (m' >>= f') s := by
  rcases hrun : m s with ⟨a, s₁⟩ | ⟨e, s₁⟩
  · rw [bind_of_ok hrun, bind_of_ok (hm.symm.trans hrun)]
    exact hf a s₁ hrun
  · rw [bind_of_error hrun, bind_of_error (hm.symm.trans hrun)]

/-- From states with a property the computation succeeds, and ends in one. -/
def Succeeds (P : σ → Prop) (m : EStateM ε σ α) : Prop := ∀ s, P s → ∃ a s', m s = .ok a s' ∧ P s'

theorem Succeeds.bind (hm : Succeeds P m) (hf : ∀ a, Succeeds P (f a)) :
    Succeeds P (m >>= f) := by
  intro s hs
  obtain ⟨a, s₁, hrun, hs₁⟩ := hm s hs
  rw [bind_of_ok hrun]
  exact hf a s₁ hs₁

theorem succeeds_pure (a : α) : Succeeds P (pure a : EStateM ε σ α) := fun s hs => ⟨a, s, rfl, hs⟩

theorem Succeeds.foldlM {step : β → α → EStateM ε σ β} {items : List α}
    (h : ∀ b, ∀ a ∈ items, Succeeds P (step b a)) (b : β) : Succeeds P (items.foldlM step b) := by
  induction items generalizing b with
  | nil => exact succeeds_pure b
  | cons a items ih =>
    rw [List.foldlM_cons]
    exact (h b a List.mem_cons_self).bind
      (ih fun b a ha => h b a (List.mem_cons_of_mem _ ha))

theorem Succeeds.preserves (h : Succeeds P m) : Preserves P m := by
  intro s hs
  obtain ⟨a, s', hrun, hs'⟩ := h s hs
  rw [hrun]
  exact hs'

theorem preserves_pure (a : α) : Preserves P (pure a : EStateM ε σ α) := fun _ hs => hs

theorem preserves_throw (e : ε) : Preserves P (throw e : EStateM ε σ α) := fun _ hs => hs

theorem preserves_modify {g : σ → σ} (h : ∀ s, P s → P (g s)) :
    Preserves P (modify g : EStateM ε σ PUnit) := fun s hs => h s hs

theorem Preserves.foldlM {step : β → α → EStateM ε σ β} (h : ∀ b a, Preserves P (step b a)) :
    ∀ (as : List α) (b : β), Preserves P (as.foldlM step b)
  | [], b => preserves_pure b
  | a :: as, b => by
    rw [List.foldlM_cons]
    exact (h b a).bind fun b => Preserves.foldlM h as b

end Bind

section Scan
variable {visit : α → EStateM ε σ (Option β)} {limit : Option ℕ} {as : List α} {done : List β}
  {s s' : σ} {e : ε} {P : σ → Prop}

theorem Preserves.scan (h : ∀ a ∈ as, Preserves P (visit a)) :
    Preserves P (scan visit limit as done) := by
  induction as generalizing done with
  | nil => exact preserves_pure done
  | cons a as ih =>
    have ih := fun done => @ih done fun x hx => h x (List.mem_cons_of_mem a hx)
    refine (h a List.mem_cons_self).bind ?_
    rintro (_ | b)
    · exact ih done
    · by_cases hlim : limit.any (· ≤ (done ++ [b]).length) = true
      · simp only [hlim, if_true]
        exact preserves_pure _
      · simp only [hlim]
        exact ih _

theorem scan_append (h : ∀ a ∈ as, visit a s = .ok none s) (bs : List α) :
    scan visit limit (as ++ bs) done s = scan visit limit bs done s := by
  induction as with
  | nil => rfl
  | cons a as ih =>
    rw [List.cons_append, scan, bind_of_ok (h a List.mem_cons_self)]
    exact ih fun x hx => h x (List.mem_cons_of_mem a hx)

/-- A scan passes over every item; or after some that it passes over it is refused at the next;
or it writes at the next and ends there or goes on. -/
theorem scan_cases (hpass : ∀ a s s', visit a s = .ok none s' → s' = s) :
    ((∀ a ∈ as, visit a s = .ok none s) ∧ scan visit limit as done s = .ok done s) ∨
      ∃ before a after, as = before ++ a :: after ∧ (∀ x ∈ before, visit x s = .ok none s) ∧
        ((∃ e s', visit a s = .error e s' ∧ scan visit limit as done s = .error e s') ∨
          ∃ b s₁, visit a s = .ok (some b) s₁ ∧
            (scan visit limit as done s = .ok (done ++ [b]) s₁ ∨
              scan visit limit as done s = scan visit limit after (done ++ [b]) s₁)) := by
  induction as with
  | nil => exact .inl ⟨by simp, rfl⟩
  | cons a as ih =>
    rcases hvisit : visit a s with ⟨_ | b, s₁⟩ | ⟨e, s₁⟩
    · cases hpass a s s₁ hvisit
      have hscan : scan visit limit (a :: as) done s = scan visit limit as done s :=
        bind_of_ok hvisit
      rw [hscan]
      rcases ih with ⟨hall, hih⟩ | ⟨before, a', after, rfl, hbefore, h⟩
      · exact .inl ⟨List.forall_mem_cons.mpr ⟨hvisit, hall⟩, hih⟩
      · exact .inr ⟨a :: before, a', after, rfl, List.forall_mem_cons.mpr ⟨hvisit, hbefore⟩, h⟩
    · have hscan : scan visit limit (a :: as) done s =
          (if limit.any (· ≤ (done ++ [b]).length) then pure (done ++ [b])
            else scan visit limit as (done ++ [b])) s₁ :=
        bind_of_ok hvisit
      refine .inr ⟨[], a, as, rfl, by simp, .inr ⟨b, s₁, hvisit, ?_⟩⟩
      by_cases hlim : limit.any (· ≤ (done ++ [b]).length) = true
      · rw [if_pos hlim] at hscan
        exact .inl hscan
      · rw [if_neg hlim] at hscan
        exact .inr hscan
    · exact .inr ⟨[], a, as, rfl, by simp, .inl ⟨e, s₁, hvisit, bind_of_error hvisit⟩⟩

end Scan

section Alike
variable {ε σ τ α β γ δ : Type} {R : σ → τ → Prop} {Q : α → β → Prop} {Q' : γ → δ → Prop}

/-- Two updates end alike, with values and states that are related, or are refused alike. -/
inductive SameRun (R : σ → τ → Prop) (Q : α → β → Prop) :
    EStateM.Result ε σ α → EStateM.Result ε τ β → Prop
  | ok {a b s t} (value : Q a b) (state : R s t) : SameRun R Q (.ok a s) (.ok b t)
  | error {e s t} (state : R s t) : SameRun R Q (.error e s) (.error e t)

theorem SameRun.bind {m : EStateM ε σ α} {n : EStateM ε τ β} {f : α → EStateM ε σ γ}
    {g : β → EStateM ε τ δ} {s : σ} {t : τ} (h : SameRun R Q (m s) (n t))
    (hf : ∀ a b s t, Q a b → R s t → SameRun R Q' (f a s) (g b t)) :
    SameRun R Q' ((m >>= f) s) ((n >>= g) t) := by
  rcases hm : m s with ⟨a, s₁⟩ | ⟨e, s₁⟩ <;> rcases hn : n t with ⟨b, t₁⟩ | ⟨e', t₁⟩ <;>
    rw [hm, hn] at h
  · rw [bind_of_ok hm, bind_of_ok hn]
    cases h with
    | ok hvalue hstate => exact hf a b s₁ t₁ hvalue hstate
  · cases h
  · cases h
  · rw [bind_of_error hm, bind_of_error hn]
    cases h with
    | error hstate => exact .error hstate

theorem SameRun.foldlM {item : Type} {step : α → item → EStateM ε σ α}
    {step' : β → item → EStateM ε τ β}
    (h : ∀ a b i s t, Q a b → R s t → SameRun R Q (step a i s) (step' b i t)) (items : List item)
    {a : α} {b : β} {s : σ} {t : τ} (hvalue : Q a b) (hstate : R s t) :
    SameRun R Q (items.foldlM step a s) (items.foldlM step' b t) := by
  induction items generalizing a b s t with
  | nil => exact .ok hvalue hstate
  | cons i items ih =>
    rw [List.foldlM_cons, List.foldlM_cons]
    exact (h a b i s t hvalue hstate).bind fun _ _ _ _ hvalue hstate => ih hvalue hstate

end Alike

end SkeinDB.Transition
