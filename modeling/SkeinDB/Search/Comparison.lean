import Mathlib.Data.Set.Basic
import Mathlib.Tactic

/-!
# Comparisons on a part of a type

A comparison may be a total preorder on some values only. There it can be reversed, pulled back and
refined by another one, and sorting by it gives a sorted permutation.
-/
namespace SkeinDB.Search
variable {α β : Type*}

/-- The comparison is a total preorder on the values of a set. -/
structure ConsistentOn (cmp : α → α → Ordering) (s : Set α) : Prop where
  refl : ∀ a ∈ s, cmp a a = .eq
  swap : ∀ a ∈ s, ∀ b ∈ s, cmp b a = (cmp a b).swap
  trans : ∀ a ∈ s, ∀ b ∈ s, ∀ c ∈ s, (cmp a b).isLE → (cmp b c).isLE → (cmp a c).isLE

variable {cmp cmp' : α → α → Ordering} {s t : Set α}

namespace ConsistentOn

theorem of_transCmp (h : Std.TransCmp fun a b : s => cmp a b) : ConsistentOn cmp s where
  refl a ha := @Std.ReflCmp.compare_self s (fun a b => cmp a b) _ ⟨a, ha⟩
  swap a ha b hb := @Std.OrientedCmp.eq_swap s (fun a b => cmp a b) _ ⟨b, hb⟩ ⟨a, ha⟩
  trans a ha b hb c hc :=
    @Std.TransCmp.isLE_trans s (fun a b => cmp a b) _ ⟨a, ha⟩ ⟨b, hb⟩ ⟨c, hc⟩

theorem transCmp (h : ConsistentOn cmp s) : Std.TransCmp fun a b : s => cmp a b where
  eq_swap {a b} := h.swap b b.property a a.property
  isLE_trans {a b c} := h.trans a a.property b b.property c c.property

theorem lt_of_lt_of_isLE (h : ConsistentOn cmp s) {a b c : α} (ha : a ∈ s) (hb : b ∈ s)
    (hc : c ∈ s) (hab : cmp a b = .lt) (hbc : (cmp b c).isLE) : cmp a c = .lt :=
  @Std.TransCmp.lt_of_lt_of_isLE s (fun a b => cmp a b) h.transCmp ⟨a, ha⟩ ⟨b, hb⟩ ⟨c, hc⟩ hab hbc

theorem congr_left (h : ConsistentOn cmp s) {a b c : α} (ha : a ∈ s) (hb : b ∈ s) (hc : c ∈ s)
    (hab : cmp a b = .eq) : cmp a c = cmp b c :=
  @Std.TransCmp.congr_left s (fun a b => cmp a b) h.transCmp ⟨a, ha⟩ ⟨b, hb⟩ ⟨c, hc⟩ hab

theorem congr_right (h : ConsistentOn cmp s) {a b c : α} (ha : a ∈ s) (hb : b ∈ s) (hc : c ∈ s)
    (hbc : cmp b c = .eq) : cmp a b = cmp a c :=
  @Std.TransCmp.congr_right s (fun a b => cmp a b) h.transCmp ⟨a, ha⟩ ⟨b, hb⟩ ⟨c, hc⟩ hbc

theorem mono (h : ConsistentOn cmp t) (hst : s ⊆ t) : ConsistentOn cmp s where
  refl a ha := h.refl a (hst ha)
  swap a ha b hb := h.swap a (hst ha) b (hst hb)
  trans a ha b hb c hc := h.trans a (hst ha) b (hst hb) c (hst hc)

theorem congr (h : ConsistentOn cmp s) (heq : ∀ a ∈ s, ∀ b ∈ s, cmp' a b = cmp a b) :
    ConsistentOn cmp' s where
  refl a ha := (heq a ha a ha).trans (h.refl a ha)
  swap a ha b hb := by
    rw [heq a ha b hb, heq b hb a ha]
    exact h.swap a ha b hb
  trans a ha b hb c hc := by
    rw [heq a ha b hb, heq b hb c hc, heq a ha c hc]
    exact h.trans a ha b hb c hc

theorem comap (h : ConsistentOn cmp t) {f : β → α} {r : Set β} (hf : ∀ b ∈ r, f b ∈ t) :
    ConsistentOn (fun a b => cmp (f a) (f b)) r where
  refl a ha := h.refl _ (hf a ha)
  swap a ha b hb := h.swap _ (hf a ha) _ (hf b hb)
  trans a ha b hb c hc := h.trans _ (hf a ha) _ (hf b hb) _ (hf c hc)

/-- The values compare as their images under a function do. -/
theorem of_compare [Ord β] [Std.TransOrd β] {f : α → β}
    (heq : ∀ a ∈ s, ∀ b ∈ s, cmp a b = compare (f a) (f b)) : ConsistentOn cmp s := by
  have hall : ConsistentOn (compare (α := β)) Set.univ :=
    ⟨fun _ _ => Std.ReflCmp.compare_self, fun _ _ _ _ => Std.OrientedCmp.eq_swap,
      fun _ _ _ _ _ _ => Std.TransCmp.isLE_trans⟩
  exact (hall.comap (r := s) (f := f) fun _ _ => Set.mem_univ _).congr heq

theorem reverse (h : ConsistentOn cmp s) : ConsistentOn (fun a b => (cmp a b).swap) s := by
  have hopposite := h.transCmp
  have hflip : ConsistentOn (fun a b => cmp b a) s :=
    of_transCmp (@Std.TransCmp.opposite s (fun a b => cmp a b) _)
  exact hflip.congr fun a ha b hb => (h.swap a ha b hb).symm

/-- Ties are broken by a second comparison. -/
theorem refine (h : ConsistentOn cmp s) (h' : ConsistentOn cmp' s) :
    ConsistentOn (fun a b => (cmp a b).then (cmp' a b)) s := by
  have hfirst := h.transCmp
  have hsecond := h'.transCmp
  exact of_transCmp (inferInstanceAs
    (Std.TransCmp (compareLex (fun a b : s => cmp a b) fun a b : s => cmp' a b)))

/-- Sorting gives a permutation in which no value comes before a smaller one. -/
theorem mergeSort {l : List α} (h : ConsistentOn cmp {a | a ∈ l}) :
    (l.mergeSort fun a b => cmp a b != .gt).Perm l ∧
      (l.mergeSort fun a b => cmp a b != .gt).Pairwise fun a b => cmp a b ≠ .gt := by
  refine ⟨List.mergeSort_perm _ _, ?_⟩
  have hmap := List.map_mergeSort (r := fun a b : {a // a ∈ l} => cmp a b != .gt)
    (s := fun a b => cmp a b != .gt) (f := Subtype.val) (l := l.attach) fun _ _ _ _ => rfl
  rw [List.attach_map_subtype_val] at hmap
  have hle : ∀ o : Ordering, (o != .gt) = o.isLE := by decide
  have hsorted := @List.pairwise_mergeSort {a // a ∈ l} (fun a b => cmp a b != .gt)
    (fun a b c => by
      simp only [hle]
      exact h.trans a a.property b b.property c c.property)
    (fun a b => by
      simp only [hle]
      rw [h.swap a a.property b b.property]
      cases cmp a b <;> rfl)
    l.attach
  rw [← hmap, List.pairwise_map]
  exact hsorted.imp fun hab => by simpa using hab

end ConsistentOn

end SkeinDB.Search
