import Mathlib.Data.List.Basic
import Mathlib.Tactic

/-!
# Patterns with wildcards

The language of a pattern with a wildcard for one symbol and one for any sequence of symbols, and
the narrower language in which a wildcard for sequences that stands before its own symbol takes just
that symbol. A matcher that goes back to the last such wildcard only accepts the narrower one.
-/
namespace SkeinDB.Text
variable {α : Type*} (one any : α)

inductive Like : List α → List α → Prop
  | nil : Like [] []
  | one (c : α) {p t : List α} (h : Like p t) : Like (one :: p) (c :: t)
  | any (skip : List α) {p t : List α} (h : Like p t) : Like (any :: p) (skip ++ t)
  | lit {x : α} (hone : x ≠ one) (hany : x ≠ any) {p t : List α} (h : Like p t) :
      Like (x :: p) (x :: t)

/-- A symbol of a pattern that takes a symbol of a text. -/
def Faces (x c : α) : Prop := x = one ∨ x = c

inductive NarrowLike : List α → List α → Prop
  | nil : NarrowLike [] []
  | face {x c : α} (hface : Faces one x c) {p t : List α} (h : NarrowLike p t) :
      NarrowLike (x :: p) (c :: t)
  | any (skip : List α) {p t : List α} (hnext : (skip ++ t).head? ≠ some any)
      (h : NarrowLike p t) : NarrowLike (any :: p) (skip ++ t)

variable {one any} {p q t u w : List α} {x c : α}

theorem NarrowLike.like (h : NarrowLike one any p t) : Like one any p t := by
  induction h with
  | nil => exact .nil
  | any skip _ _ ih => exact .any skip ih
  | @face x c hface p t _ ih =>
    by_cases hone : x = one
    · subst hone
      exact .one c ih
    · obtain rfl := hface.resolve_left hone
      by_cases hany : x = any
      · subst hany
        exact .any [x] ih
      · exact .lit hone hany ih

/-- Without the symbol of the wildcard in the text the languages are the same. -/
theorem Like.narrow (h : Like one any p t) (hany : any ∉ t) : NarrowLike one any p t := by
  induction h with
  | nil => exact .nil
  | one c _ ih => exact .face (Or.inl rfl) (ih fun h => hany (List.mem_cons_of_mem c h))
  | any skip _ ih =>
    refine .any skip (fun hnext => hany (List.mem_of_mem_head? hnext)) (ih fun h => hany ?_)
    exact List.mem_append_right skip h
  | @lit x _ _ p t _ ih => exact .face (Or.inr rfl) (ih fun h => hany (List.mem_cons_of_mem x h))

section Inversion

theorem Like.of_nil (h : Like one any [] t) : t = [] := by
  generalize hp : ([] : List α) = p at h
  cases h with
  | nil => rfl
  | one => cases hp
  | any => cases hp
  | lit => cases hp

theorem Like.of_one (hne : one ≠ any) (h : Like one any (one :: p) t) :
    ∃ c t', t = c :: t' ∧ Like one any p t' := by
  generalize hp : one :: p = p' at h
  cases h with
  | nil => cases hp
  | @one c _ t h =>
    cases hp
    exact ⟨c, t, rfl, h⟩
  | any =>
    cases hp
    exact absurd rfl hne
  | lit hone =>
    cases hp
    exact absurd rfl hone

theorem Like.exists_suffix (hne : one ≠ any) (h : Like one any (any :: p) t) :
    ∃ w, w <:+ t ∧ Like one any p w := by
  generalize hp : any :: p = p' at h
  cases h with
  | nil => cases hp
  | one =>
    cases hp
    exact absurd rfl hne
  | any skip h =>
    cases hp
    exact ⟨_, List.suffix_append skip _, h⟩
  | lit _ hany =>
    cases hp
    exact absurd rfl hany

theorem Like.of_suffix (h : Like one any p w) (hw : w <:+ t) : Like one any (any :: p) t := by
  obtain ⟨skip, rfl⟩ := hw
  exact .any skip h

/-- Symbols that are no wildcards stand for themselves. -/
theorem like_append_iff (hone : one ∉ u) (hany : any ∉ u) :
    Like one any (u ++ p) t ↔ ∃ t', t = u ++ t' ∧ Like one any p t' := by
  induction u generalizing t with
  | nil => simp
  | cons x u ih =>
    rw [List.mem_cons, not_or] at hone hany
    constructor
    · intro h
      generalize hp : x :: u ++ p = p' at h
      cases h with
      | nil => cases hp
      | one =>
        cases hp
        exact absurd rfl hone.1
      | any =>
        cases hp
        exact absurd rfl hany.1
      | lit _ _ h =>
        cases hp
        obtain ⟨t', rfl, h'⟩ := (ih hone.2 hany.2).mp h
        exact ⟨t', rfl, h'⟩
    · rintro ⟨t', rfl, h⟩
      exact .lit (Ne.symm hone.1) (Ne.symm hany.1) ((ih hone.2 hany.2).mpr ⟨t', rfl, h⟩)

/-- A text without the wildcard for sequences matches itself. -/
theorem like_self_append (hany : any ∉ u) (h : Like one any p t) :
    Like one any (u ++ p) (u ++ t) := by
  induction u with
  | nil => exact h
  | cons x u ih =>
    rw [List.mem_cons, not_or] at hany
    by_cases hone : x = one
    · subst hone
      exact .one x (ih hany.2)
    · exact .lit hone (Ne.symm hany.1) (ih hany.2)

theorem like_ones (t : List α) : Like one any (List.replicate t.length one) t := by
  induction t with
  | nil => exact .nil
  | cons c t ih => exact .one c ih

end Inversion

section Runs

theorem not_narrowLike_nil_cons : ¬ NarrowLike one any [] (c :: t) := by
  intro h
  generalize hp : ([] : List α) = p, ht : c :: t = t' at h
  cases h with
  | nil => cases ht
  | face => cases hp
  | any => cases hp

theorem NarrowLike.of_cons (h : NarrowLike one any (x :: p) (c :: t)) (hx : x ≠ any) :
    Faces one x c ∧ NarrowLike one any p t := by
  generalize hp : x :: p = p', ht : c :: t = t' at h
  cases h with
  | nil => cases hp
  | face hface h =>
    cases hp
    cases ht
    exact ⟨hface, h⟩
  | any skip hnext h =>
    cases hp
    exact absurd rfl hx

/-- A wildcard before its own symbol takes just that symbol. -/
theorem NarrowLike.of_any (h : NarrowLike one any (any :: p) (any :: t)) :
    NarrowLike one any p t := by
  generalize hp : any :: p = p', ht : any :: t = t' at h
  cases h with
  | nil => cases hp
  | face hface h =>
    cases hp
    cases ht
    exact h
  | any skip hnext h =>
    rw [← ht] at hnext
    exact absurd rfl hnext

/-- Whatever a wildcard for sequences takes, the rest matches a suffix. -/
theorem NarrowLike.exists_suffix (h : NarrowLike one any (any :: p) t) :
    ∃ w, w <:+ t ∧ NarrowLike one any p w := by
  generalize hp : any :: p = p' at h
  cases h with
  | nil => cases hp
  | @face x c _ _ t h =>
    cases hp
    exact ⟨t, List.suffix_cons c t, h⟩
  | any skip _ h =>
    cases hp
    exact ⟨_, List.suffix_append skip _, h⟩

theorem NarrowLike.of_suffix (h : NarrowLike one any p w) (hw : w <:+ t)
    (hnext : t.head? ≠ some any) : NarrowLike one any (any :: p) t := by
  obtain ⟨skip, rfl⟩ := hw
  exact .any skip hnext h

theorem narrowLike_nil : NarrowLike one any p [] ↔ ∀ x ∈ p, x = any := by
  induction p with
  | nil => simp [NarrowLike.nil]
  | cons x p ih =>
    rw [List.forall_mem_cons, ← ih]
    constructor
    · intro h
      generalize ht : ([] : List α) = t at h
      cases h with
      | face => cases ht
      | any skip _ h =>
        obtain ⟨rfl, rfl⟩ := List.append_eq_nil_iff.mp ht.symm
        exact ⟨rfl, h⟩
    · rintro ⟨rfl, h⟩
      exact NarrowLike.any [] (by simp) h

theorem narrowLike_ones (hne : one ≠ any) {k : ℕ} :
    NarrowLike one any (List.replicate k one) t ↔ t.length = k := by
  induction k generalizing t with
  | zero =>
    constructor
    · intro h
      generalize hp : List.replicate 0 one = p at h
      cases h with
      | nil => rfl
      | face => cases hp
      | any => cases hp
    · intro h
      rw [List.length_eq_zero_iff.mp h]
      exact .nil
  | succ k ih =>
    rcases t with _ | ⟨c, t⟩
    · rw [narrowLike_nil]
      simp [hne]
    · rw [List.replicate_succ, List.length_cons, Nat.succ_inj, ← ih]
      exact ⟨fun h => (h.of_cons hne).2, fun h => .face (Or.inl rfl) h⟩

/-- Symbols other than the wildcard for sequences take one symbol each. -/
theorem NarrowLike.of_append (hany : any ∉ u) (h : NarrowLike one any (u ++ p) (w ++ t))
    (hlen : u.length = w.length) : NarrowLike one any p t := by
  induction u generalizing w with
  | nil =>
    rw [List.length_eq_zero_iff.mp hlen.symm] at h
    exact h
  | cons x u ih =>
    rcases w with _ | ⟨c, w⟩
    · cases hlen
    · rw [List.mem_cons, not_or] at hany
      exact ih hany.2 (h.of_cons (Ne.symm hany.1)).2 (Nat.succ_inj.mp hlen)

end Runs

section Backtracking

/-- If the symbols in front of a pattern face those in front of a text, and the pattern matches from
some point of the text on, then what follows the symbols matches from some point on behind them. -/
theorem NarrowLike.ahead {seg piece : List α} (hseg : List.Forall₂ (Faces one) seg piece)
    (hne : one ≠ any) (hw : w <:+ piece ++ t) (h : NarrowLike one any (seg ++ q) w) :
    ∃ w', w' <:+ t ∧ NarrowLike one any q w' := by
  induction hseg generalizing w with
  | nil => exact ⟨w, hw, h⟩
  | @cons x c seg piece hface hseg ih =>
    rw [List.cons_append, List.suffix_cons_iff] at hw
    generalize hp : x :: seg ++ q = p at h
    cases h with
    | nil => cases hp
    | @face x' c' _ _ t' h =>
      cases hp
      rcases hw with hw | hw
      · cases hw
        exact ih (List.suffix_refl _) h
      · exact ih ((List.suffix_cons c' t').trans hw) h
    | any skip hnext h =>
      cases hp
      rcases hw with hw | hw
      · obtain rfl : any = c := hface.resolve_left hne.symm
        rw [hw] at hnext
        exact absurd rfl hnext
      · exact ih ((List.suffix_append skip _).trans hw) h

end Backtracking

end SkeinDB.Text
