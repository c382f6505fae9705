import SkeinDB.Consensus.Ballots

/-!
# Mandates

Nodes hold an epoch and the leader they take it to belong to. An epoch is given to a leader by an
election that a majority decides, or by decree of a single node. If no decree names an epoch that
is held for another leader or was won by one, and no election is won in an epoch held for another
leader, then nodes that hold the same epoch agree on its leader.
-/
namespace SkeinDB.Consensus.Mandates
variable {ν ρ : Type*}

/-- What the nodes hold, what they remember of their votes, the ballots cast and the epochs won
in the race for leadership. -/
structure State (ν ρ : Type*) where
  held : ν → ℕ × ν
  record : ν → ρ → ℕ × ν
  box : Set (Ballot ν ρ)
  wins : Set (ℕ × ν)

/-- No member holds the epoch for another leader. -/
def Uncontested (members : Finset ν) (s : State ν ρ) (epoch : ℕ) (leader : ν) : Prop :=
  ∀ n ∈ members, (s.held n).1 = epoch → (s.held n).2 = leader

/-- No other leader has won the epoch. -/
def Unclaimed (s : State ν ρ) (epoch : ℕ) (leader : ν) : Prop :=
  ∀ w ∈ s.wins, w.1 = epoch → w.2 = leader

variable [DecidableEq ν]

structure Inv (members : Finset ν) (race : ρ) (s : State ν ρ) : Prop where
  recorded : Recorded s.record s.box
  elected : ∀ w ∈ s.wins, Elected members s.box race w.1 w.2
  winners : ∀ w ∈ s.wins, Uncontested members s w.1 w.2
  agree : ∀ n ∈ members, ∀ m ∈ members, (s.held n).1 = (s.held m).1 → (s.held n).2 = (s.held m).2

variable {members : Finset ν} {race : ρ} {s : State ν ρ} {epoch : ℕ} {leader : ν}

/-- A majority gives an epoch to one leader only. -/
theorem Inv.unclaimed (h : Inv members race s) (hwon : Elected members s.box race epoch leader) :
    Unclaimed s epoch leader := by
  rintro w hw rfl
  exact (h.elected w hw).unique h.recorded hwon

/-- A node takes up an epoch that nobody holds or has won for another leader. -/
theorem Inv.take (h : Inv members race s) (n : ν) (hheld : Uncontested members s epoch leader)
    (hwins : Unclaimed s epoch leader) :
    Inv members race { s with held := Function.update s.held n (epoch, leader) } := by
  refine { recorded := h.recorded, elected := h.elected, winners := ?_, agree := ?_ }
  · intro w hw m hm hepoch
    by_cases hmn : m = n
    · subst hmn
      simp only [Function.update_self] at hepoch ⊢
      exact (hwins w hw hepoch.symm).symm
    · simp only [Function.update_of_ne hmn] at hepoch ⊢
      exact h.winners w hw m hm hepoch
  · intro m hm k hk hepoch
    by_cases hmn : m = n
    · by_cases hkn : k = n
      · rw [hmn, hkn]
      · subst hmn
        simp only [Function.update_self, Function.update_of_ne hkn] at hepoch ⊢
        exact (hheld k hk hepoch.symm).symm
    · by_cases hkn : k = n
      · subst hkn
        simp only [Function.update_self, Function.update_of_ne hmn] at hepoch ⊢
        exact hheld m hm hepoch
      · simp only [Function.update_of_ne hmn, Function.update_of_ne hkn] at hepoch ⊢
        exact h.agree m hm k hk hepoch

/-- A node hears of a leader that has won its epoch. -/
theorem Inv.adopt (h : Inv members race s) (n : ν) (hw : (epoch, leader) ∈ s.wins) :
    Inv members race { s with held := Function.update s.held n (epoch, leader) } :=
  h.take n (h.winners _ hw) (h.unclaimed (h.elected _ hw))

/-- A leader wins an epoch that nobody holds for another one. -/
theorem Inv.win (h : Inv members race s) (hwon : Elected members s.box race epoch leader)
    (hheld : Uncontested members s epoch leader) :
    Inv members race { s with wins := insert (epoch, leader) s.wins } := by
  refine { recorded := h.recorded, elected := ?_, winners := ?_, agree := h.agree }
  · rintro w (rfl | hw)
    · exact hwon
    · exact h.elected w hw
  · rintro w (rfl | hw)
    · exact hheld
    · exact h.winners w hw

/-- A voter casts a ballot in a later term than its last one, or repeats that one. -/
theorem Inv.vote (h : Inv members race s) {b : Ballot ν ρ} {record : ν → ρ → ℕ × ν}
    (hok : (s.record b.voter b.race).1 < b.term ∨ s.record b.voter b.race = (b.term, b.candidate))
    (hself : record b.voter b.race = (b.term, b.candidate))
    (hother : ∀ v r, (v, r) ≠ (b.voter, b.race) → record v r = s.record v r) :
    Inv members race { s with record := record, box := insert b s.box } where
  recorded := h.recorded.cast hok hself hother
  elected w hw := (h.elected w hw).mono (Set.subset_insert b s.box)
  winners := h.winners
  agree := h.agree

end SkeinDB.Consensus.Mandates
