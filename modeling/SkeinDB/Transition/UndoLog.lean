import Mathlib.Tactic

/-!
# Marks in an undo log

A log of undo steps grows while a state changes. A mark is a length of the log and the state in
which the log had it. Undoing the steps behind a mark brings its state back, as long as the log
between two marks brings back the state of the first from that of the second.
-/
namespace SkeinDB.Transition
variable {σ υ : Type*}

/-- Undo steps that bring one state back from another may be undone one after another. -/
structure UndoLaws (restores : σ → List υ → σ → Prop) : Prop where
  nil : ∀ s, restores s [] s
  append : ∀ {s₁ s₂ s₃ log more}, restores s₁ log s₂ → restores s₂ more s₃ →
    restores s₁ (log ++ more) s₃

/-- From one mark to the next, and from the last to the state that is reached. -/
def Marked (restores : σ → List υ → σ → Prop) (log : List υ) (reached : σ) :
    σ → ℕ → List (ℕ × σ) → Prop
  | base, start, [] => start ≤ log.length ∧ restores base (log.drop start) reached
  | base, start, (len, mark) :: marks => start ≤ len ∧ len ≤ log.length ∧
    restores base ((log.take len).drop start) mark ∧ Marked restores log reached mark len marks

section Marks
variable {restores : σ → List υ → σ → Prop} {log more : List υ} {reached reached' base mark : σ}
  {start len idx : ℕ} {marks : List (ℕ × σ)}

theorem take_drop_append_drop (hstart : start ≤ len) (hlen : len ≤ log.length) :
    (log.take len).drop start ++ log.drop len = log.drop start := by
  rw [← List.drop_append_of_le_length (by simpa [hlen] using hstart), List.take_append_drop]

theorem Marked.start_le (h : Marked restores log reached base start marks) :
    start ≤ log.length := by
  cases marks with
  | nil => exact h.1
  | cons mark marks => exact h.1.trans h.2.1

/-- The whole log brings back the state it begins in. -/
theorem Marked.restores_base (hlaws : UndoLaws restores)
    (h : Marked restores log reached base start marks) :
    restores base (log.drop start) reached := by
  induction marks generalizing base start with
  | nil => exact h.2
  | cons m marks ih =>
    obtain ⟨hstart, hlen, hmark, hrest⟩ := h
    rw [← take_drop_append_drop hstart hlen]
    exact hlaws.append hmark (ih hrest)

/-- The log grows by steps that undo what changed. -/
theorem Marked.grow (h : Marked restores log reached base start marks)
    (hgrow : ∀ s steps, restores s steps reached → restores s (steps ++ more) reached') :
    Marked restores (log ++ more) reached' base start marks := by
  induction marks generalizing base start with
  | nil =>
    refine ⟨h.1.trans (by simp), ?_⟩
    rw [List.drop_append_of_le_length h.1]
    exact hgrow _ _ h.2
  | cons m marks ih =>
    obtain ⟨hstart, hlen, hmark, hrest⟩ := h
    refine ⟨hstart, hlen.trans (by simp), ?_, ih hrest⟩
    rwa [List.take_append_of_le_length hlen]

/-- The state changes where the log undoes the change as well. -/
theorem Marked.mono (h : Marked restores log reached base start marks)
    (hmono : ∀ s steps, restores s steps reached → restores s steps reached') :
    Marked restores log reached' base start marks := by
  have hgrow : Marked restores (log ++ []) reached' base start marks :=
    h.grow (by simpa using hmono)
  simpa using hgrow

theorem Marked.push (hlaws : UndoLaws restores)
    (h : Marked restores log reached base start marks) :
    Marked restores log reached base start (marks ++ [(log.length, reached)]) := by
  induction marks generalizing base start with
  | nil =>
    refine ⟨h.1, le_rfl, ?_, le_rfl, ?_⟩
    · simpa using h.2
    · simpa using hlaws.nil reached
  | cons m marks ih => exact ⟨h.1, h.2.1, h.2.2.1, ih h.2.2.2⟩

/-- Later marks are given up, and the log is kept. -/
theorem Marked.release (hlaws : UndoLaws restores)
    (h : Marked restores log reached base start marks) (idx : ℕ) :
    Marked restores log reached base start (marks.take idx) := by
  induction marks generalizing base start idx with
  | nil => simpa using h
  | cons m marks ih =>
    cases idx with
    | zero => exact ⟨h.start_le, h.restores_base hlaws⟩
    | succ idx => exact ⟨h.1, h.2.1, h.2.2.1, ih h.2.2.2 idx⟩

/-- The log behind a mark brings its state back. -/
theorem Marked.restores_mark (hlaws : UndoLaws restores)
    (h : Marked restores log reached base start marks) (hmark : marks[idx]? = some (len, mark)) :
    restores mark (log.drop len) reached := by
  induction marks generalizing base start idx with
  | nil => simp at hmark
  | cons m marks ih =>
    cases idx with
    | zero =>
      rw [List.getElem?_cons_zero, Option.some.injEq] at hmark
      subst hmark
      exact h.2.2.2.restores_base hlaws
    | succ idx => exact ih h.2.2.2 (by simpa using hmark)

/-- And leaves the marks up to it. -/
theorem Marked.rollback (hlaws : UndoLaws restores)
    (h : Marked restores log reached base start marks) (hmark : marks[idx]? = some (len, mark)) :
    Marked restores (log.take len) mark base start (marks.take (idx + 1)) := by
  induction marks generalizing base start idx with
  | nil => simp at hmark
  | cons m marks ih =>
    obtain ⟨hstart, hlen, hsegment, hrest⟩ := h
    cases idx with
    | zero =>
      rw [List.getElem?_cons_zero, Option.some.injEq] at hmark
      subst hmark
      refine ⟨hstart, by simp [hlen], ?_, by simp [hlen], ?_⟩
      · rwa [List.take_take, min_self]
      · simpa [List.drop_take] using hlaws.nil mark
    | succ idx =>
      have hmark' : marks[idx]? = some (len, mark) := by simpa using hmark
      have hrolled := ih hrest hmark'
      have hle := hrolled.start_le
      rw [List.length_take] at hle
      refine ⟨hstart, by simp [hlen]; omega, ?_, hrolled⟩
      rwa [List.take_take, min_eq_left (by omega)]

end Marks

end SkeinDB.Transition
