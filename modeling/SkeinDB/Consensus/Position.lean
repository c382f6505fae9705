import Mathlib.Data.Prod.Lex
import Mathlib.Tactic

/-!
# Log positions

A position names an operation of a replicated log by the term of the leader that wrote it
and a sequence number. Positions are ordered by term first and by sequence number within a
term.
-/
namespace SkeinDB.Consensus

@[ext]
structure Position where
  term : ℕ
  seq : ℕ
deriving DecidableEq, Repr

namespace Position

theorem toLex_injective : Function.Injective (fun p : Position => toLex (p.term, p.seq)) := by
  intro p q h
  simpa [Position.ext_iff] using h

instance : LinearOrder Position :=
  LinearOrder.lift' (fun p => toLex (p.term, p.seq)) toLex_injective

/-- The position before every operation. -/
instance : Zero Position := ⟨⟨0, 0⟩⟩

@[simp] theorem zero_term : (0 : Position).term = 0 := rfl

@[simp] theorem zero_seq : (0 : Position).seq = 0 := rfl

theorem le_iff {p q : Position} :
    p ≤ q ↔ p.term < q.term ∨ p.term = q.term ∧ p.seq ≤ q.seq := by
  change toLex (p.term, p.seq) ≤ toLex (q.term, q.seq) ↔ _
  rw [Prod.Lex.toLex_le_toLex]

theorem lt_iff {p q : Position} :
    p < q ↔ p.term < q.term ∨ p.term = q.term ∧ p.seq < q.seq := by
  change toLex (p.term, p.seq) < toLex (q.term, q.seq) ↔ _
  rw [Prod.Lex.toLex_lt_toLex]

theorem zero_le (p : Position) : 0 ≤ p := by
  rw [le_iff]
  simp only [zero_term, zero_seq]
  omega

theorem term_le {p q : Position} (h : p ≤ q) : p.term ≤ q.term := by
  rw [le_iff] at h
  omega

end Position

end SkeinDB.Consensus
