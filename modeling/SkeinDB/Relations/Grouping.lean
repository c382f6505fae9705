import Mathlib.Tactic

/-!
# One row for each group

A key divides rows into groups. A list of rows stands for the groups if each key of the rows is the
key of one of its rows and of no other. The rows themselves, each once, stand for the groups of a
key exactly if the key tells them apart.
-/
namespace SkeinDB.Relations
variable {α κ : Type*} {rows groups : List α}

structure OnePer (key : α → κ) (rows groups : List α) : Prop where
  nodup : (groups.map key).Nodup
  covers : ∀ k, k ∈ groups.map key ↔ k ∈ rows.map key

theorem OnePer.mem_iff (h : OnePer id rows groups) (a : α) : a ∈ groups ↔ a ∈ rows := by
  simpa using h.covers a

theorem OnePer.perm {rows' : List α} (h : OnePer id rows groups) (hperm : rows.Perm rows') :
    OnePer id rows' groups :=
  ⟨h.nodup, fun k => (h.covers k).trans (hperm.map id).mem_iff⟩

end SkeinDB.Relations
