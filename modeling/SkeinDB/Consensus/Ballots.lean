import Mathlib.Data.Finset.Card
import Mathlib.Tactic

/-!
# Ballots

Voters take part in several races, each held term by term. A voter remembers, for each
race, the latest term it voted in and its choice there. `Recorded` says that a set of cast
ballots agrees with these memories; a voter that only votes in a later term, or repeats its
last choice, keeps it. Two candidates elected by majorities in one term of one race are then
the same, since the two majorities share a voter.
-/
namespace SkeinDB.Consensus

section Majority
variable {ν : Type*} [DecidableEq ν]

/-- More than half of the members. -/
def IsMajority (members Q : Finset ν) : Prop :=
  Q ⊆ members ∧ members.card < 2 * Q.card

theorem IsMajority.exists_common {members Q R : Finset ν} (hQ : IsMajority members Q)
    (hR : IsMajority members R) : ∃ v, v ∈ Q ∧ v ∈ R := by
  have hcard : members.card < Q.card + R.card := by
    have := hQ.2
    have := hR.2
    omega
  obtain ⟨v, hv⟩ := Finset.inter_nonempty_of_card_lt_card_add_card hQ.1 hR.1 hcard
  exact ⟨v, Finset.mem_inter.mp hv⟩

/-- A majority of at least two members has somebody besides any one of them. -/
theorem IsMajority.exists_ne {members Q : Finset ν} (hQ : IsMajority members Q) {v w : ν}
    (hv : v ∈ members) (hw : w ∈ members) (hvw : v ≠ w) : ∃ u ∈ Q, u ≠ v := by
  have htwo : 2 ≤ members.card := by
    have hsub : ({v, w} : Finset ν) ⊆ members := by
      intro x hx
      rcases Finset.mem_insert.mp hx with rfl | hx
      · exact hv
      · exact Finset.mem_singleton.mp hx ▸ hw
    simpa [Finset.card_pair hvw] using Finset.card_le_card hsub
  have hcard : 1 < Q.card := by
    have := hQ.2
    omega
  exact Finset.exists_mem_ne hcard v

/-- A list of distinct members with the candidate in front, longer than half the membership. -/
theorem isMajority_of_count {members votes : List ν} {c : ν} (hmem : members.Nodup)
    (hnodup : votes.Nodup) (hc : c ∈ members) (hcv : c ∉ votes) (hsub : ∀ v ∈ votes, v ∈ members)
    (hcount : members.length / 2 + 1 ≤ 1 + votes.length) :
    IsMajority members.toFinset (c :: votes).toFinset := by
  refine ⟨fun v hv => ?_, ?_⟩
  · rcases List.mem_cons.mp (List.mem_toFinset.mp hv) with rfl | hv
    · exact List.mem_toFinset.mpr hc
    · exact List.mem_toFinset.mpr (hsub v hv)
  · rw [List.toFinset_card_of_nodup hmem,
      List.toFinset_card_of_nodup (List.nodup_cons.mpr ⟨hcv, hnodup⟩), List.length_cons]
    omega

end Majority

variable {ν ρ : Type*}

/-- `voter` supports `candidate` in `term` of `race`. -/
structure Ballot (ν ρ : Type*) where
  voter : ν
  race : ρ
  term : ℕ
  candidate : ν
deriving DecidableEq

/-- The ballots cast agree with what the voters remember of their latest vote. -/
structure Recorded (record : ν → ρ → ℕ × ν) (box : Set (Ballot ν ρ)) : Prop where
  latest : ∀ b ∈ box, b.term < (record b.voter b.race).1 ∨
    record b.voter b.race = (b.term, b.candidate)
  single : ∀ b ∈ box, ∀ b' ∈ box, b.voter = b'.voter → b.race = b'.race → b.term = b'.term →
    b.candidate = b'.candidate

theorem Recorded.empty (record : ν → ρ → ℕ × ν) : Recorded record ∅ where
  latest := by simp
  single := by simp

/-- Casting a ballot in a later term, or the last ballot again. -/
theorem Recorded.cast {record record' : ν → ρ → ℕ × ν} {box : Set (Ballot ν ρ)}
    {b : Ballot ν ρ} (h : Recorded record box)
    (hok : (record b.voter b.race).1 < b.term ∨
      record b.voter b.race = (b.term, b.candidate))
    (hself : record' b.voter b.race = (b.term, b.candidate))
    (hother : ∀ v r, (v, r) ≠ (b.voter, b.race) → record' v r = record v r) :
    Recorded record' (insert b box) := by
  -- an earlier ballot of this voter in this race is of an older term or the same choice
  have hold : ∀ b' ∈ box, b'.voter = b.voter → b'.race = b.race →
      b'.term < b.term ∨ (b'.term = b.term ∧ b'.candidate = b.candidate) := by
    intro b' hb' hv hr
    have hrec := h.latest b' hb'
    rw [hv, hr] at hrec
    rcases hok with hlt | heq
    · rcases hrec with hlt' | heq'
      · exact Or.inl (hlt'.trans hlt)
      · exact Or.inl (by simpa [heq'] using hlt)
    · rcases hrec with hlt' | heq'
      · exact Or.inl (by simpa [heq] using hlt')
      · rw [heq] at heq'
        exact Or.inr ⟨(congrArg Prod.fst heq').symm, (congrArg Prod.snd heq').symm⟩
  refine ⟨?_, ?_⟩
  · rintro b' (rfl | hb')
    · exact Or.inr hself
    · by_cases hsame : (b'.voter, b'.race) = (b.voter, b.race)
      · obtain ⟨hv, hr⟩ := Prod.mk.inj hsame
        rw [hv, hr, hself]
        rcases hold b' hb' hv hr with hlt | ⟨ht, hc⟩
        · exact Or.inl hlt
        · exact Or.inr (by rw [ht, hc])
      · rw [hother _ _ hsame]
        exact h.latest b' hb'
  · rintro b₁ (rfl | h₁) b₂ (rfl | h₂) hv hr ht
    · rfl
    · rcases hold b₂ h₂ hv.symm hr.symm with hlt | ⟨-, hc⟩
      · exact absurd ht hlt.ne'
      · exact hc.symm
    · rcases hold b₁ h₁ hv hr with hlt | ⟨-, hc⟩
      · exact absurd ht hlt.ne
      · exact hc
    · exact h.single b₁ h₁ b₂ h₂ hv hr ht

/-- A majority of the members cast its ballot for the candidate. -/
def Elected [DecidableEq ν] (members : Finset ν) (box : Set (Ballot ν ρ)) (r : ρ) (t : ℕ)
    (c : ν) : Prop :=
  ∃ Q, IsMajority members Q ∧ ∀ v ∈ Q, (⟨v, r, t, c⟩ : Ballot ν ρ) ∈ box

theorem Elected.mono [DecidableEq ν] {members : Finset ν} {box box' : Set (Ballot ν ρ)} {r : ρ}
    {t : ℕ} {c : ν} (h : Elected members box r t c) (hsub : box ⊆ box') :
    Elected members box' r t c := by
  obtain ⟨Q, hQ, hvotes⟩ := h
  exact ⟨Q, hQ, fun v hv => hsub (hvotes v hv)⟩

theorem Elected.unique [DecidableEq ν] {members : Finset ν} {record : ν → ρ → ℕ × ν}
    {box : Set (Ballot ν ρ)} (hrec : Recorded record box) {r : ρ} {t : ℕ} {c c' : ν}
    (h : Elected members box r t c) (h' : Elected members box r t c') : c = c' := by
  obtain ⟨Q, hQ, hvotes⟩ := h
  obtain ⟨R, hR, hvotes'⟩ := h'
  obtain ⟨v, hvQ, hvR⟩ := hQ.exists_common hR
  exact hrec.single _ (hvotes v hvQ) _ (hvotes' v hvR) rfl rfl rfl

end SkeinDB.Consensus
