import Mathlib.Tactic

/-!
# Replaying a log

A store executes commands and reports whether each one succeeded. Replaying a log is executing its
commands in order. A log whose entries ascend splits at any position into what is up to it and what
is above it.
-/
namespace SkeinDB.Transition
variable {ε κ : Type*} {exec : ε → κ → ε × Bool}

/-- A command that fails counts with what it left behind. -/
def replay (exec : ε → κ → ε × Bool) (e : ε) (cs : List κ) : ε :=
  cs.foldl (fun e c => (exec e c).1) e

@[simp] theorem replay_nil (e : ε) : replay exec e [] = e := rfl

@[simp] theorem replay_cons (e : ε) (c : κ) (cs : List κ) :
    replay exec e (c :: cs) = replay exec (exec e c).1 cs := rfl

theorem replay_append (e : ε) (cs cs' : List κ) :
    replay exec e (cs ++ cs') = replay exec (replay exec e cs) cs' :=
  List.foldl_append

theorem replay_concat (e : ε) (cs : List κ) (c : κ) :
    replay exec e (cs ++ [c]) = (exec (replay exec e cs) c).1 := by
  rw [replay_append]
  rfl

section Sorted
variable {β : Type*} [LinearOrder β] {f : κ → β}

/-- An ascending log is its part up to a position followed by its part above it. -/
theorem filter_le_append_filter_lt {log : List κ} (h : log.Pairwise (f · < f ·)) (p : β) :
    log.filter (f · ≤ p) ++ log.filter (p < f ·) = log := by
  induction log with
  | nil => rfl
  | cons c log ih =>
    obtain ⟨hfirst, hrest⟩ := List.pairwise_cons.mp h
    by_cases hc : f c ≤ p
    · have hnot : ¬ p < f c := not_lt.mpr hc
      simp only [List.filter_cons, hc, hnot, decide_true, decide_false, if_true,
        List.cons_append, Bool.false_eq_true, if_false]
      rw [ih hrest]
    · have hlt : p < f c := not_le.mp hc
      have habove : ∀ d ∈ c :: log, p < f d := by
        intro d hd
        rcases List.mem_cons.mp hd with rfl | hd
        · exact hlt
        · exact hlt.trans (hfirst d hd)
      have hnone : (c :: log).filter (f · ≤ p) = [] := by
        rw [List.filter_eq_nil_iff]
        intro d hd
        simpa using habove d hd
      have hall : (c :: log).filter (p < f ·) = c :: log := by
        rw [List.filter_eq_self]
        intro d hd
        simpa using habove d hd
      rw [hnone, hall, List.nil_append]

end Sorted

end SkeinDB.Transition
