import Mathlib.Data.Multiset.Bind
import Mathlib.Tactic

/-!
# Joins of bags

The rows of two bags are merged pair by pair, and the merged rows that satisfy a condition are kept.
An outer join also keeps the rows without a partner, padded. The rules follow the nested loop: one
row of the first bag against all rows of the second.
-/
namespace SkeinDB.Relations

noncomputable section
open scoped Classical

variable {α β γ : Type*} (merge : α → β → γ) (on : γ → Prop) (pad : α → γ)

def inner (l : Multiset α) (r : Multiset β) : Multiset γ :=
  ((l ×ˢ r).map fun p => merge p.1 p.2).filter on

/-- The rows of the first bag without a partner in the second. -/
def dangling (l : Multiset α) (r : Multiset β) : Multiset α :=
  l.filter fun a => ∀ b ∈ r, ¬ on (merge a b)

def leftOuter (l : Multiset α) (r : Multiset β) : Multiset γ :=
  inner merge on l r + (dangling merge on l r).map pad

def fullOuter (padRight : β → γ) (l : Multiset α) (r : Multiset β) : Multiset γ :=
  leftOuter merge on pad l r + (dangling (fun b a => merge a b) on r l).map padRight

/-- One row against all rows of a bag. -/
def partners (a : α) (r : Multiset β) : Multiset γ := (r.map (merge a)).filter on

section Loop
variable {merge on pad} {a : α} {l : Multiset α} {r : Multiset β}

@[simp] theorem inner_zero : inner merge on 0 r = 0 := by simp [inner]

theorem inner_cons : inner merge on (a ::ₘ l) r = partners merge on a r + inner merge on l r := by
  rw [inner, inner, partners, Multiset.cons_product, Multiset.map_add, Multiset.filter_add,
    Multiset.map_map]
  rfl

@[simp] theorem dangling_zero : dangling merge on 0 r = 0 := Multiset.filter_zero _

theorem partners_eq_zero_iff : partners merge on a r = 0 ↔ ∀ b ∈ r, ¬ on (merge a b) := by
  rw [partners, Multiset.filter_eq_nil]
  simp only [Multiset.mem_map, forall_exists_index, and_imp, forall_apply_eq_imp_iff₂]

theorem dangling_cons_of_matched (h : partners merge on a r ≠ 0) :
    dangling merge on (a ::ₘ l) r = dangling merge on l r :=
  Multiset.filter_cons_of_neg _ (partners_eq_zero_iff.not.mp h)

theorem dangling_cons_of_unmatched (h : partners merge on a r = 0) :
    dangling merge on (a ::ₘ l) r = a ::ₘ dangling merge on l r :=
  Multiset.filter_cons_of_pos _ (partners_eq_zero_iff.mp h)

@[simp] theorem leftOuter_zero : leftOuter merge on pad 0 r = 0 := by simp [leftOuter]

theorem leftOuter_cons_of_matched (h : partners merge on a r ≠ 0) :
    leftOuter merge on pad (a ::ₘ l) r =
      partners merge on a r + leftOuter merge on pad l r := by
  rw [leftOuter, leftOuter, inner_cons, dangling_cons_of_matched h, add_assoc]

theorem leftOuter_cons_of_unmatched (h : partners merge on a r = 0) :
    leftOuter merge on pad (a ::ₘ l) r = {pad a} + leftOuter merge on pad l r := by
  rw [leftOuter, leftOuter, inner_cons, dangling_cons_of_unmatched h, h, zero_add,
    Multiset.map_cons, Multiset.singleton_add, Multiset.add_cons]

end Loop

section Lists
variable {test : γ → Bool}

theorem partners_coe (a : α) (right : List β) :
    partners merge (test ·) a (right : Multiset β) =
      ((right.map (merge a)).filter test : List γ) := by
  rw [partners, Multiset.map_coe, Multiset.filter_coe]
  simp

theorem inner_coe (left : List α) (right : List β) :
    inner merge (test ·) (left : Multiset α) (right : Multiset β) =
      (left.flatMap fun a => (right.map (merge a)).filter test : List γ) := by
  induction left with
  | nil => simp
  | cons a left ih =>
    rw [← Multiset.cons_coe, inner_cons, ih, partners_coe, List.flatMap_cons, Multiset.coe_add]

theorem leftOuter_coe (left : List α) (right : List β) :
    leftOuter merge (test ·) pad (left : Multiset α) (right : Multiset β) =
      (left.flatMap fun a =>
        let found := (right.map (merge a)).filter test
        if found.isEmpty then [pad a] else found : List γ) := by
  induction left with
  | nil => simp
  | cons a left ih =>
    have hcoe := @partners_coe _ _ _ merge test a right
    rw [← Multiset.cons_coe, List.flatMap_cons, ← Multiset.coe_add, ← ih]
    dsimp only
    rcases hfound : (right.map (merge a)).filter test with _ | ⟨c, found⟩
    · rw [hfound] at hcoe
      rw [leftOuter_cons_of_unmatched hcoe]
      rfl
    · rw [hfound] at hcoe
      have hne : partners merge (test ·) a (right : Multiset β) ≠ 0 := by
        rw [hcoe, ← Multiset.cons_coe]
        exact Multiset.cons_ne_zero
      rw [leftOuter_cons_of_matched hne, hcoe]
      rfl

theorem dangling_coe (left : List α) (right : List β) :
    dangling merge (test ·) (left : Multiset α) (right : Multiset β) =
      (left.filter fun a => !right.any fun b => test (merge a b) : List α) := by
  rw [dangling, Multiset.filter_coe]
  refine congrArg _ (List.filter_congr fun a _ => ?_)
  rw [Bool.eq_iff_iff]
  simp

end Lists

section Members
variable {merge on pad} {l : Multiset α} {r : Multiset β} {c : γ}

theorem exists_of_mem_inner (h : c ∈ inner merge on l r) : ∃ a ∈ l, ∃ b ∈ r, c = merge a b := by
  obtain ⟨p, hp, rfl⟩ := Multiset.mem_map.mp (Multiset.mem_of_mem_filter h)
  obtain ⟨ha, hb⟩ := Multiset.mem_product.mp hp
  exact ⟨p.1, ha, p.2, hb, rfl⟩

theorem exists_of_mem_leftOuter (h : c ∈ leftOuter merge on pad l r) :
    (∃ a ∈ l, ∃ b ∈ r, c = merge a b) ∨ ∃ a ∈ l, c = pad a := by
  rcases Multiset.mem_add.mp h with h | h
  · exact .inl (exists_of_mem_inner h)
  · obtain ⟨a, ha, rfl⟩ := Multiset.mem_map.mp h
    exact .inr ⟨a, Multiset.mem_of_mem_filter ha, rfl⟩

theorem exists_of_mem_fullOuter {padRight : β → γ} (h : c ∈ fullOuter merge on pad padRight l r) :
    (∃ a ∈ l, ∃ b ∈ r, c = merge a b) ∨ (∃ a ∈ l, c = pad a) ∨ ∃ b ∈ r, c = padRight b := by
  rcases Multiset.mem_add.mp h with h | h
  · exact (exists_of_mem_leftOuter h).imp_right .inl
  · obtain ⟨b, hb, rfl⟩ := Multiset.mem_map.mp h
    exact .inr (.inr ⟨b, Multiset.mem_of_mem_filter hb, rfl⟩)

end Members

section Sides
variable {l : Multiset α} {r : Multiset β}

variable {merge on pad} {α' β' γ' : Type*} {merge' : α' → β' → γ'} {on' : γ' → Prop}
  {pad' : α' → γ'} {f : γ → γ'} {g : α → α'} {h : β → β'}

/-- The images of the rows are merged and kept as the rows are. -/
structure Carries (merge : α → β → γ) (on : γ → Prop) (merge' : α' → β' → γ') (on' : γ' → Prop)
    (f : γ → γ') (g : α → α') (h : β → β') (l : Multiset α) (r : Multiset β) : Prop where
  merged : ∀ a ∈ l, ∀ b ∈ r, f (merge a b) = merge' (g a) (h b)
  kept : ∀ a ∈ l, ∀ b ∈ r, on (merge a b) ↔ on' (merge' (g a) (h b))

theorem Carries.tail {a : α} (c : Carries merge on merge' on' f g h (a ::ₘ l) r) :
    Carries merge on merge' on' f g h l r where
  merged a' ha' := c.merged a' (Multiset.mem_cons_of_mem ha')
  kept a' ha' := c.kept a' (Multiset.mem_cons_of_mem ha')

theorem Carries.swap (c : Carries merge on merge' on' f g h l r) :
    Carries (fun b a => merge a b) on (fun b a => merge' a b) on' f h g r l where
  merged b hb a ha := c.merged a ha b hb
  kept b hb a ha := c.kept a ha b hb

theorem Carries.partners (c : Carries merge on merge' on' f g h l r) {a : α} (ha : a ∈ l) :
    (partners merge on a r).map f = Relations.partners merge' on' (g a) (r.map h) := by
  rw [Relations.partners, Relations.partners, Multiset.map_map, Multiset.filter_map,
    Multiset.filter_map, Multiset.map_map]
  have hfilter : r.filter (on ∘ merge a) = r.filter (on' ∘ (merge' (g a) ∘ h)) :=
    Multiset.filter_congr fun b hb => c.kept a ha b hb
  rw [hfilter]
  exact Multiset.map_congr rfl fun b hb => c.merged a ha b (Multiset.mem_of_mem_filter hb)

theorem Carries.inner (c : Carries merge on merge' on' f g h l r) :
    (inner merge on l r).map f = Relations.inner merge' on' (l.map g) (r.map h) := by
  induction l using Multiset.induction with
  | empty => simp
  | cons a l ih =>
    rw [inner_cons, Multiset.map_add, c.partners (Multiset.mem_cons_self a l), ih c.tail,
      Multiset.map_cons, inner_cons]

theorem Carries.dangling (c : Carries merge on merge' on' f g h l r) :
    (dangling merge on l r).map g = Relations.dangling merge' on' (l.map g) (r.map h) := by
  rw [Relations.dangling, Relations.dangling, Multiset.filter_map]
  refine congrArg (Multiset.map g) (Multiset.filter_congr fun a ha => ?_)
  simp only [Function.comp, Multiset.mem_map, forall_exists_index, and_imp,
    forall_apply_eq_imp_iff₂]
  exact forall₂_congr fun b hb => not_congr (c.kept a ha b hb)

theorem Carries.padded (c : Carries merge on merge' on' f g h l r)
    (hpad : ∀ a ∈ l, f (pad a) = pad' (g a)) :
    ((Relations.dangling merge on l r).map pad).map f =
      (Relations.dangling merge' on' (l.map g) (r.map h)).map pad' := by
  rw [← c.dangling, Multiset.map_map, Multiset.map_map]
  exact Multiset.map_congr rfl fun a ha => hpad a (Multiset.mem_of_mem_filter ha)

theorem Carries.leftOuter (c : Carries merge on merge' on' f g h l r)
    (hpad : ∀ a ∈ l, f (pad a) = pad' (g a)) :
    (leftOuter merge on pad l r).map f =
      Relations.leftOuter merge' on' pad' (l.map g) (r.map h) := by
  rw [Relations.leftOuter, Relations.leftOuter, Multiset.map_add, c.inner, c.padded hpad]

theorem Carries.fullOuter (c : Carries merge on merge' on' f g h l r)
    {padRight : β → γ} {padRight' : β' → γ'} (hpad : ∀ a ∈ l, f (pad a) = pad' (g a))
    (hpadRight : ∀ b ∈ r, f (padRight b) = padRight' (h b)) :
    (fullOuter merge on pad padRight l r).map f =
      Relations.fullOuter merge' on' pad' padRight' (l.map g) (r.map h) := by
  rw [Relations.fullOuter, Relations.fullOuter, Multiset.map_add, c.leftOuter hpad,
    c.swap.padded hpadRight]

end Sides

end

end SkeinDB.Relations
