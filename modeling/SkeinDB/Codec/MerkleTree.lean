import Mathlib.Data.List.Basic
import Mathlib.Data.List.Induction
import Mathlib.Data.Prod.Basic

/-!
# Merkle trees

A binary tree with values in its leaves has the value that combines the values of its subtrees.
A path of siblings climbs from a leaf to the root. Where the combined pairs can be told from their
value, and combined values from leaves, only the leaves of a tree climb to its value.
-/
namespace SkeinDB.Codec

inductive MerkleTree (α : Type)
  | leaf (a : α)
  | node (left right : MerkleTree α)

namespace MerkleTree
variable {α : Type} (combine : α → α → α)

def value : MerkleTree α → α
  | leaf a => a
  | node left right => combine left.value right.value

def leaves : MerkleTree α → List α
  | leaf a => [a]
  | node left right => left.leaves ++ right.leaves

/-- The pairs that are combined for the value of the tree. -/
def pairs : MerkleTree α → List (α × α)
  | leaf _ => []
  | node left right =>
    (left.value combine, right.value combine) :: (left.pairs ++ right.pairs)

/-- Neighbours become children of one node, and the last of an odd number stays as it is. -/
def level : List (MerkleTree α) → List (MerkleTree α)
  | left :: right :: rest => node left right :: level rest
  | rest => rest

theorem level_leaves (ts : List (MerkleTree α)) :
    (level ts).flatMap leaves = ts.flatMap leaves := by
  induction ts using List.twoStepInduction with
  | nil => rfl
  | singleton t => rfl
  | cons_cons left right rest ih _ =>
    rw [level, List.flatMap_cons, ih, List.flatMap_cons, List.flatMap_cons, leaves,
      List.append_assoc]

/-- A sibling of the path, and whether it stands on the right. -/
def pairUp (a : α) (sibling : α × Bool) : α × α :=
  if sibling.2 then (a, sibling.1) else (sibling.1, a)

def climb (a : α) (path : List (α × Bool)) : α :=
  path.foldl (fun a sibling => combine (pairUp a sibling).1 (pairUp a sibling).2) a

/-- The pairs that are combined on the way up. -/
def climbed : α → List (α × Bool) → List (α × α)
  | _, [] => []
  | a, sibling :: path =>
    pairUp a sibling :: climbed (combine (pairUp a sibling).1 (pairUp a sibling).2) path

variable {combine} {a : α} {path : List (α × Bool)}

theorem climb_append (more : List (α × Bool)) :
    climb combine a (path ++ more) = climb combine (climb combine a path) more :=
  List.foldl_append

theorem climbed_concat (sibling : α × Bool) :
    climbed combine a (path ++ [sibling]) =
      climbed combine a path ++ [pairUp (climb combine a path) sibling] := by
  induction path generalizing a with
  | nil => rfl
  | cons s path ih =>
    rw [List.cons_append, climbed, ih, climbed, List.cons_append]
    rfl

/-- A property of the leaves and of all combined values holds of all values in a tree. -/
theorem value_of_leaves {P : α → Prop} (hcombine : ∀ a b, P (combine a b)) (t : MerkleTree α)
    (hleaves : ∀ a ∈ t.leaves, P a) : P (t.value combine) := by
  cases t with
  | leaf a => exact hleaves a (List.mem_singleton_self a)
  | node left right => exact hcombine _ _

theorem pairs_of_leaves {P : α → Prop} (hcombine : ∀ a b, P (combine a b)) (t : MerkleTree α)
    (hleaves : ∀ a ∈ t.leaves, P a) : ∀ p ∈ t.pairs combine, P p.1 ∧ P p.2 := by
  induction t with
  | leaf a => simp [pairs]
  | node left right ihl ihr =>
    rw [leaves, List.forall_mem_append] at hleaves
    rw [pairs, List.forall_mem_cons, List.forall_mem_append]
    exact ⟨⟨value_of_leaves hcombine left hleaves.1, value_of_leaves hcombine right hleaves.2⟩,
      ihl hleaves.1, ihr hleaves.2⟩

/-- Where no combined value is like a leaf, only the leaves of a tree climb to its value. -/
theorem mem_leaves_of_climb {P : α → Prop} (hinner : ∀ a b, ¬ P (combine a b))
    (ha : P a) (t : MerkleTree α) (hleaves : ∀ b ∈ t.leaves, P b)
    (hpairs : ∀ p ∈ climbed combine a path, ∀ q ∈ t.pairs combine,
      combine p.1 p.2 = combine q.1 q.2 → p = q)
    (hvalue : climb combine a path = t.value combine) : a ∈ t.leaves := by
  induction t generalizing path with
  | leaf b =>
    rcases List.eq_nil_or_concat' path with rfl | ⟨path, sibling, rfl⟩
    · exact List.mem_singleton.mpr hvalue
    · rw [climb_append] at hvalue
      have hb : climb combine (climb combine a path) [sibling] = b := hvalue
      exact absurd (hb ▸ hleaves b (List.mem_singleton_self b)) (hinner _ _)
  | node left right ihl ihr =>
    rw [leaves, List.forall_mem_append] at hleaves
    rcases List.eq_nil_or_concat' path with rfl | ⟨path, sibling, rfl⟩
    · exact absurd ((show a = _ from hvalue) ▸ ha) (hinner _ _)
    · rw [climb_append] at hvalue
      rw [climbed_concat, List.forall_mem_append, List.forall_mem_singleton] at hpairs
      have hlast := hpairs.2 _ List.mem_cons_self hvalue
      rw [leaves, List.mem_append]
      by_cases hside : sibling.2
      · rw [pairUp, if_pos hside] at hlast
        refine Or.inl (ihl hleaves.1 (fun p hp q hq => ?_) (Prod.mk.inj hlast).1)
        exact hpairs.1 p hp q (List.mem_cons_of_mem _ (List.mem_append_left _ hq))
      · rw [pairUp, if_neg hside] at hlast
        refine Or.inr (ihr hleaves.2 (fun p hp q hq => ?_) (Prod.mk.inj hlast).2)
        exact hpairs.1 p hp q (List.mem_cons_of_mem _ (List.mem_append_right _ hq))

end MerkleTree

end SkeinDB.Codec
