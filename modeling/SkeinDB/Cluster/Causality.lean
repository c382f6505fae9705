import SkeinDB.Consensus.KeyedMerge
import Mathlib.Data.Prod.Lex
import Mathlib.Data.String.Basic

/-!
# Causality tokens

A causality token lists the versions of tables and views that a session depends on. Nodes and
clients merge the tokens they receive: of the entries of one table or view the newest stays, and of
entries of one version the first. As maps from names to versions the merges are pointwise maxima; as
lists of entries they depend on the order of two tokens where entries of one version differ.
-/
namespace SkeinDB.Cluster
open Consensus

structure CausalityDependency where
  table : String
  v : Option ℕ
  view : Option Bool
  changeSeq : Option ℕ
  stale : Option Bool
deriving DecidableEq, Repr

structure CausalityToken where
  format : String
  deps : List CausalityDependency
deriving DecidableEq, Repr

namespace CausalityDependency

def isView (dep : CausalityDependency) : Bool := dep.view.getD false || dep.changeSeq.isSome

/-- Tables and views are merged apart. -/
def key (dep : CausalityDependency) : String ×ₗ Bool := toLex (dep.table, dep.isView)

def version (dep : CausalityDependency) : ℕ :=
  if dep.isView then dep.changeSeq.getD 0 else dep.v.getD 0

/-- What the entries of a merge are sorted by. -/
def sortKey (dep : CausalityDependency) : String ×ₗ Bool := toLex (dep.table, dep.view.getD false)

end CausalityDependency

open CausalityDependency

/-- The entries of both tokens are collected in a map from keys to entries. -/
def mergeClusterCausality (a b : CausalityToken) : CausalityToken where
  format := if a.format = "vector_clock_v2" ∨ b.format = "vector_clock_v2" then "vector_clock_v2"
    else a.format
  deps := (collectNewest key version (a.deps ++ b.deps)).insertionSort
    fun left right => left.sortKey ≤ right.sortKey

namespace CausalityToken

/-- A token with one entry for each table or view, in order. -/
def canonical (t : CausalityToken) : CausalityToken := ⟨t.format, collectNewest key version t.deps⟩

/-- The entry that a merge takes for a table or view. -/
def entry (t : CausalityToken) (k : String ×ₗ Bool) : Option CausalityDependency :=
  kept key version k t.deps

/-- The version of a table or view, the greatest of its entries. -/
def versionOf (t : CausalityToken) (k : String ×ₗ Bool) : WithBot ℕ := rankAt key version k t.deps

end CausalityToken

section Merge
variable {a b c : CausalityToken}

/-- Sorting changes nothing: a view comes after the table of its name whether it is marked as a
view or not. -/
theorem sorted_of_key {deps : List CausalityDependency} (h : deps.Pairwise (key · < key ·)) :
    deps.insertionSort (fun left right => left.sortKey ≤ right.sortKey) = deps := by
  refine List.Pairwise.insertionSort_eq (h.imp ?_)
  intro left right hlt
  rw [key, key, Prod.Lex.toLex_lt_toLex] at hlt
  rw [sortKey, sortKey, Prod.Lex.toLex_le_toLex]
  refine hlt.imp_right fun ⟨htable, hview⟩ => ⟨htable, ?_⟩
  have hleft : left.view.getD false = false := by
    have hfalse : left.isView = false := (Bool.lt_iff.mp hview).1
    rw [isView, Bool.or_eq_false_iff] at hfalse
    exact hfalse.1
  rw [hleft]
  exact Bool.false_le _

theorem merge_deps (a b : CausalityToken) :
    (mergeClusterCausality a b).deps = collectNewest key version (a.deps ++ b.deps) :=
  sorted_of_key (collectNewest_sorted _)

theorem merge_format (h : a.format = b.format) : (mergeClusterCausality a b).format = a.format := by
  dsimp only [mergeClusterCausality]
  rw [← h]
  split_ifs with hformat
  · exact (hformat.elim id id).symm
  · rfl

/-- Tokens of one format merge as their entries do. -/
theorem merge_eq (h : a.format = b.format) :
    mergeClusterCausality a b =
      ⟨a.format, collectNewest key version (a.deps ++ b.deps)⟩ := by
  rw [← merge_format h, ← merge_deps]

end Merge

/-- Merging tokens of one format is associative, gives each table and view the greater of its
versions, and takes a token with itself to its canonical form, which is the token in order if it has
one entry for each table and view. It is commutative if and only if entries of one version that two
tokens have for a table or view are equal. -/
theorem causality_merge {a b c : CausalityToken} (hab : a.format = b.format)
    (hbc : b.format = c.format) :
    mergeClusterCausality (mergeClusterCausality a b) c =
        mergeClusterCausality a (mergeClusterCausality b c) ∧
    (∀ k, (mergeClusterCausality a b).versionOf k = max (a.versionOf k) (b.versionOf k)) ∧
    (mergeClusterCausality a a = a.canonical ∧
      ((a.deps.map key).Nodup → (mergeClusterCausality a a).deps.Perm a.deps)) ∧
    (mergeClusterCausality a b = mergeClusterCausality b a ↔
      ∀ k, ∀ x ∈ a.entry k, ∀ y ∈ b.entry k, x.version = y.version → x = y) := by
  have hself : mergeClusterCausality a a = a.canonical := by
    rw [merge_eq rfl, mergeNewest_self]
    rfl
  refine ⟨?_, ?_, ⟨hself, ?_⟩, ?_⟩
  · have hleft : (mergeClusterCausality a b).format = c.format :=
      (merge_format hab).trans (hab.trans hbc)
    have hright : a.format = (mergeClusterCausality b c).format :=
      hab.trans (merge_format hbc).symm
    rw [merge_eq hleft, merge_eq hright, merge_format hab, merge_deps, merge_deps,
      mergeNewest_assoc]
  · intro k
    rw [CausalityToken.versionOf, merge_deps]
    exact rankAt_merge k a.deps b.deps
  · intro hkeys
    rw [hself]
    exact collectNewest_perm hkeys
  · rw [merge_eq hab, merge_eq hab.symm, ← hab, CausalityToken.mk.injEq]
    rw [eq_self_iff_true, true_and]
    exact mergeNewest_comm_iff

section Sample

/-- A view at a change, marked as stale or not. -/
def sampleView (stale : Option Bool) : CausalityDependency := ⟨"orders", none, none, some 3, stale⟩

def sampleTable (version : ℕ) : CausalityDependency := ⟨"orders", some version, none, none, none⟩

/-- Two tokens with a table at different versions and one view. -/
theorem causality_merge_sample :
    let a : CausalityToken := ⟨"vector_clock_v1", [sampleView none, sampleTable 4]⟩
    let b : CausalityToken := ⟨"vector_clock_v1", [sampleTable 7]⟩
    mergeClusterCausality a b = ⟨"vector_clock_v1", [sampleTable 7, sampleView none]⟩ ∧
      ∀ k, (mergeClusterCausality a b).versionOf k = max (a.versionOf k) (b.versionOf k) := by
  have h := @causality_merge ⟨"vector_clock_v1", [sampleView none, sampleTable 4]⟩
    ⟨"vector_clock_v1", [sampleTable 7]⟩ ⟨"vector_clock_v1", []⟩ rfl rfl
  exact ⟨by decide +kernel, h.2.1⟩

/-- A view that one token marks as stale: the first token decides. A token with two entries for one
table does not merge with itself to itself. -/
theorem merge_not_join :
    mergeClusterCausality ⟨"vector_clock_v1", [sampleView none]⟩
        ⟨"vector_clock_v1", [sampleView (some true)]⟩ ≠
      mergeClusterCausality ⟨"vector_clock_v1", [sampleView (some true)]⟩
        ⟨"vector_clock_v1", [sampleView none]⟩ ∧
    ¬ (mergeClusterCausality ⟨"vector_clock_v1", [sampleTable 4, sampleTable 7]⟩
        ⟨"vector_clock_v1", [sampleTable 4, sampleTable 7]⟩).deps.Perm
          [sampleTable 4, sampleTable 7] := by
  decide +kernel

end Sample

end SkeinDB.Cluster
