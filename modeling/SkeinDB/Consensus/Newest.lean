import Mathlib.Tactic

/-!
# Keeping the newest value

A register takes a value over if its rank is above that of the value it holds, so that of two values
of one rank the first stays. What it holds in the end has the greatest rank, and where a rank
determines the value it does not depend on the order or the repetition of the values.
-/
namespace SkeinDB.Consensus
variable {α β : Type*} [LinearOrder β] (rank : α → β)

def newer (held a : α) : α := if rank held < rank a then a else held

def newest (held : α) (as : List α) : α := as.foldl (newer rank) held

@[simp] theorem newest_nil (held : α) : newest rank held [] = held := rfl

@[simp] theorem newest_cons (held a : α) (as : List α) :
    newest rank held (a :: as) = newest rank (newer rank held a) as := rfl

variable {held a : α} {as bs : List α}

section Register
variable {rank}

theorem newer_of_lt (h : rank held < rank a) : newer rank held a = a := if_pos h

theorem newer_of_le (h : rank a ≤ rank held) : newer rank held a = held := if_neg (not_lt.mpr h)

instance newer_idempotent : Std.IdempotentOp (newer rank) :=
  ⟨fun _ => newer_of_le le_rfl⟩

/-- The first of the values with the greatest rank stays, however they are grouped. -/
instance newer_associative : Std.Associative (newer rank) := by
  constructor
  intro x y z
  rcases lt_or_ge (rank x) (rank y) with hxy | hxy
  · rw [newer_of_lt hxy]
    rcases lt_or_ge (rank y) (rank z) with hyz | hyz
    · rw [newer_of_lt hyz, newer_of_lt (hxy.trans hyz)]
    · rw [newer_of_le hyz, newer_of_lt hxy]
  · rw [newer_of_le hxy]
    rcases lt_or_ge (rank y) (rank z) with hyz | hyz
    · rw [newer_of_lt hyz]
    · rw [newer_of_le hyz, newer_of_le hxy, newer_of_le (hyz.trans hxy)]

/-- Of two values with one rank the order matters unless they are equal. -/
theorem newer_comm_iff {x y : α} : newer rank x y = newer rank y x ↔ (rank x = rank y → x = y) := by
  rcases lt_trichotomy (rank x) (rank y) with h | h | h
  · rw [newer_of_lt h, newer_of_le h.le]
    exact ⟨fun _ heq => absurd heq h.ne, fun _ => rfl⟩
  · rw [newer_of_le h.ge, newer_of_le h.le]
    exact ⟨fun hxy _ => hxy, fun hxy => hxy h⟩
  · rw [newer_of_le h.le, newer_of_lt h]
    exact ⟨fun _ heq => absurd heq h.ne', fun _ => rfl⟩

end Register

section Rank

theorem newer_cases (held a : α) : newer rank held a = held ∨ newer rank held a = a := by
  rcases lt_or_ge (rank held) (rank a) with h | h
  · exact Or.inr (newer_of_lt h)
  · exact Or.inl (newer_of_le h)

theorem rank_newer (held a : α) : rank (newer rank held a) = max (rank held) (rank a) := by
  rcases lt_or_ge (rank held) (rank a) with h | h
  · rw [newer_of_lt h, max_eq_right h.le]
  · rw [newer_of_le h, max_eq_left h]

/-- What is held in the end was held before or came later with a greater rank. -/
theorem newest_cases (held : α) (as : List α) :
    newest rank held as = held ∨ (newest rank held as ∈ as ∧
      rank held < rank (newest rank held as)) := by
  induction as generalizing held with
  | nil => exact Or.inl rfl
  | cons a as ih =>
    rw [newest_cons]
    rcases lt_or_ge (rank held) (rank a) with hlt | hle
    · rw [newer_of_lt hlt]
      rcases ih a with hsame | ⟨hmem, hrank⟩
      · rw [hsame]
        exact Or.inr ⟨List.mem_cons_self, hlt⟩
      · exact Or.inr ⟨List.mem_cons_of_mem a hmem, hlt.trans hrank⟩
    · rw [newer_of_le hle]
      exact (ih held).imp_right fun h => ⟨List.mem_cons_of_mem a h.1, h.2⟩

theorem rank_held_le (held : α) (as : List α) : rank held ≤ rank (newest rank held as) := by
  rcases newest_cases rank held as with h | ⟨-, h⟩
  · rw [h]
  · exact h.le

theorem rank_le_newest (held : α) (ha : a ∈ as) : rank a ≤ rank (newest rank held as) := by
  induction as generalizing held with
  | nil => simp at ha
  | cons b as ih =>
    rcases List.mem_cons.mp ha with rfl | ha
    · calc rank a ≤ max (rank held) (rank a) := le_max_right _ _
        _ = rank (newer rank held a) := (rank_newer rank held a).symm
        _ ≤ rank (newest rank held (a :: as)) := rank_held_le rank _ as
    · exact ih (newer rank held b) ha

end Rank

section Order
variable {rank}

/-- Values that are not above it leave the register as it is. -/
theorem newest_eq_held (h : rank (newest rank held as) = rank held) :
    newest rank held as = held := by
  rcases newest_cases rank held as with hsame | ⟨-, hlt⟩
  · exact hsame
  · exact absurd h hlt.ne'

theorem rank_newest_le {r : β} (hheld : rank held ≤ r) (has : ∀ a ∈ as, rank a ≤ r) :
    rank (newest rank held as) ≤ r := by
  rcases newest_cases rank held as with hsame | ⟨hmem, -⟩
  · rw [hsame]
    exact hheld
  · exact has _ hmem

/-- Order and repetition do not matter where a rank determines the value. -/
theorem newest_congr (hsame : ∀ a, a ∈ as ↔ a ∈ bs)
    (hrank : ∀ a ∈ as, ∀ b ∈ as, rank a = rank b → a = b) (held : α) :
    newest rank held as = newest rank held bs := by
  have hle : rank (newest rank held as) ≤ rank (newest rank held bs) :=
    rank_newest_le (rank_held_le rank held bs) fun a ha =>
      rank_le_newest rank held ((hsame a).mp ha)
  have hge : rank (newest rank held bs) ≤ rank (newest rank held as) :=
    rank_newest_le (rank_held_le rank held as) fun b hb =>
      rank_le_newest rank held ((hsame b).mpr hb)
  have heq := le_antisymm hle hge
  rcases newest_cases rank held as with has | ⟨has, hlt⟩
  · rw [has] at heq ⊢
    exact (newest_eq_held heq.symm).symm
  · rcases newest_cases rank held bs with hbs | ⟨hbs, -⟩
    · rw [heq, hbs] at hlt
      exact absurd hlt (lt_irrefl _)
    · exact hrank _ has _ ((hsame _).mpr hbs) heq

end Order

end SkeinDB.Consensus
