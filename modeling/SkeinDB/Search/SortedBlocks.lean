import Mathlib.Data.List.Pairwise
import Mathlib.Tactic

/-!
# Lookup in a sorted list cut into blocks

Entries with strictly increasing keys are cut into non-empty blocks. A binary search over
the first keys of the blocks finds the only block that can hold a key, and a scan of that
block that stops at the first greater key finds the entry.
-/
namespace SkeinDB.Search

section PartitionPoint

/-- Binary search for the end of the initial run of indices that satisfy `p`. -/
def partitionPoint (p : ℕ → Bool) : ℕ → ℕ → ℕ → ℕ
  | 0, lo, _ => lo
  | fuel + 1, lo, hi =>
    if lo < hi then
      let mid := (lo + hi) / 2
      if p mid then partitionPoint p fuel (mid + 1) hi else partitionPoint p fuel lo mid
    else lo

theorem partitionPoint_spec {p : ℕ → Bool} (hp : ∀ i j, i ≤ j → p j → p i) {fuel lo hi : ℕ}
    (hfuel : hi ≤ lo + fuel) (hle : lo ≤ hi) (hlow : ∀ i < lo, p i) (hhigh : ∀ i, hi ≤ i → ¬ p i) :
    (∀ i < partitionPoint p fuel lo hi, p i) ∧ ∀ i, partitionPoint p fuel lo hi ≤ i → ¬ p i := by
  induction fuel generalizing lo hi with
  | zero =>
    obtain rfl : hi = lo := by omega
    exact ⟨hlow, hhigh⟩
  | succ fuel ih =>
    rw [partitionPoint]
    split
    · rename_i hlt
      dsimp only
      split
      · rename_i hmid
        refine ih (by omega) (by omega) ?_ hhigh
        intro i hi
        exact hp i _ (by omega) hmid
      · rename_i hmid
        refine ih (by omega) (by omega) hlow ?_
        intro i hi hpi
        exact hmid (hp _ i hi hpi)
    · obtain rfl : hi = lo := by omega
      exact ⟨hlow, hhigh⟩

end PartitionPoint

section Sorted
variable {α κ : Type*}

theorem find_eq_none [DecidableEq κ] {key : α → κ} {es : List α} {k : κ}
    (h : ∀ e ∈ es, key e ≠ k) : es.find? (fun e => key e = k) = none := by
  rw [List.find?_eq_none]
  simpa using h

variable [Ord κ] (key : α → κ)

/-- The keys strictly increase. -/
def Sorted (es : List α) : Prop := es.Pairwise fun a b => compare (key a) (key b) = .lt

/-- Scan for a key, up to the first greater one. -/
def scan (k : κ) : List α → Option α
  | [] => none
  | e :: es =>
    match compare (key e) k with
    | .eq => some e
    | .gt => none
    | .lt => scan k es

theorem compare_ne_of_lt [Std.ReflOrd κ] {a b : κ} (h : compare a b = .lt) : a ≠ b := by
  rintro rfl
  simp at h

variable {key} [Std.TransOrd κ] [Std.LawfulEqOrd κ] [DecidableEq κ]

theorem scan_eq_find {es : List α} (hs : Sorted key es) (k : κ) :
    scan key k es = es.find? (fun e => key e = k) := by
  induction es with
  | nil => rfl
  | cons e es ih =>
    rw [Sorted, List.pairwise_cons] at hs
    cases hcmp : compare (key e) k with
    | eq =>
      have hkey : key e = k := Std.LawfulEqOrd.eq_of_compare hcmp
      simp [scan, hkey]
    | lt =>
      have hkey := compare_ne_of_lt hcmp
      simp [scan, hcmp, hkey, ih hs.2]
    | gt =>
      have hlt : compare k (key e) = .lt := Std.OrientedCmp.lt_of_gt hcmp
      have hnone : es.find? (fun e => key e = k) = none := by
        apply find_eq_none
        intro x hx
        exact (compare_ne_of_lt (Std.TransCmp.lt_trans hlt (hs.1 x hx))).symm
      have hkey : key e ≠ k := (compare_ne_of_lt hlt).symm
      simp [scan, hcmp, hkey, hnone]

/-- The pairs of a map are found under their keys. -/
theorem toList_find {υ : Type*} (m : Std.TreeMap κ υ) (k : κ) :
    (m.toList.find? fun p => p.1 = k).map (·.2) = m[k]? := by
  cases hfind : m.toList.find? fun p => p.1 = k with
  | none =>
    rw [List.find?_eq_none] at hfind
    cases hvalue : m[k]? with
    | none => rfl
    | some value =>
      have hin := Std.TreeMap.mem_toList_iff_getElem?_eq_some.mpr hvalue
      simpa using hfind _ hin
  | some p =>
    have hkey : p.1 = k := by simpa using List.find?_some hfind
    have hin := Std.TreeMap.mem_toList_iff_getElem?_eq_some.mp (List.mem_of_find?_eq_some hfind)
    rw [← hkey, hin]
    rfl

end Sorted

section Blocks
variable {α κ : Type*} [Ord κ] {key : α → κ}

/-- Whether a block starts at or before a key. -/
def startsBy (key : α → κ) (k : κ) (block : List α) : Bool :=
  block.head?.any fun e => (compare (key e) k).isLE

/-- Blocks that start at or before a key come first. -/
theorem startsBy_anti [Std.TransOrd κ] {blocks : List (List α)} {k : κ} (hs : Sorted key blocks.flatten)
    (hne : ∀ b ∈ blocks, b ≠ []) {i j : ℕ} (hij : i ≤ j)
    (hj : (blocks[j]?).any (startsBy key k)) : (blocks[i]?).any (startsBy key k) := by
  obtain ⟨bj, hbj, hstart⟩ : ∃ b, blocks[j]? = some b ∧ startsBy key k b := by
    simpa [Option.any_eq_true] using hj
  obtain ⟨hjlt, rfl⟩ := List.getElem?_eq_some_iff.mp hbj
  rcases hij.lt_or_eq with hlt | rfl
  · obtain ⟨ei, hei⟩ := List.exists_mem_of_ne_nil _ (hne _ (List.getElem_mem (by omega : i < _)))
    have hcross := List.pairwise_iff_getElem.mp (List.pairwise_flatten.mp hs).2 i j (by omega)
      hjlt hlt
    rw [List.getElem?_eq_getElem (by omega)]
    simp only [startsBy, Option.any_some] at hstart ⊢
    cases hhead : blocks[j].head? with
    | none => simp [hhead] at hstart
    | some ej =>
      rw [hhead, Option.any_some] at hstart
      cases hfirst : blocks[i].head? with
      | none =>
        rw [List.head?_eq_none_iff] at hfirst
        simp [hfirst] at hei
      | some e =>
        have hbelow := hcross e (List.mem_of_mem_head? hfirst) ej (List.mem_of_mem_head? hhead)
        exact Std.TransCmp.isLE_trans (by rw [hbelow]; rfl) hstart
  · exact hj

variable [Std.TransOrd κ] [Std.LawfulEqOrd κ]

/-- A key in front of a block is not in it. -/
theorem key_ne_of_after {block : List α} {k : κ} (hs : Sorted key block)
    (hne : block ≠ []) (h : ¬ startsBy key k block) : ∀ e ∈ block, key e ≠ k := by
  obtain ⟨first, rest, rfl⟩ := List.exists_cons_of_ne_nil hne
  rw [Sorted, List.pairwise_cons] at hs
  have hgt : compare (key first) k = .gt := by
    cases hcmp : compare (key first) k <;> simp [startsBy, hcmp] at h ⊢
  have hlt : compare k (key first) = .lt := Std.OrientedCmp.lt_of_gt hgt
  intro e he
  rcases List.mem_cons.mp he with rfl | he
  · exact (compare_ne_of_lt hlt).symm
  · exact (compare_ne_of_lt (Std.TransCmp.lt_trans hlt (hs.1 e he))).symm

/-- Everything before a block that starts at or before a key has a smaller key. -/
theorem key_ne_of_before {block front : List α} {k : κ}
    (hs : Sorted key (front ++ block)) (h : startsBy key k block) :
    ∀ e ∈ front, key e ≠ k := by
  intro e he
  cases block with
  | nil => simp [startsBy] at h
  | cons first rest =>
    rw [Sorted, List.pairwise_append] at hs
    have hlt := hs.2.2 e he first (by simp)
    have hle : (compare (key first) k).isLE := by simpa [startsBy] using h
    exact compare_ne_of_lt (Std.TransCmp.lt_of_lt_of_isLE hlt hle)

variable [DecidableEq κ]

/-- The block chosen by the first keys decides the lookup. -/
theorem find_flatten {front back : List (List α)} {block : List α} {k : κ}
    (hs : Sorted key (front ++ block :: back).flatten) (hne : ∀ b ∈ back, b ≠ [])
    (hblock : startsBy key k block) (hback : ∀ b ∈ back, ¬ startsBy key k b) :
    (front ++ block :: back).flatten.find? (fun e => key e = k) =
      block.find? (fun e => key e = k) := by
  rw [List.flatten_append, List.flatten_cons] at hs ⊢
  have hbefore : Sorted key (front.flatten ++ block) := by
    rw [← List.append_assoc] at hs
    exact (List.pairwise_append.mp hs).1
  have hfront : front.flatten.find? (fun e => key e = k) = none :=
    find_eq_none (key_ne_of_before hbefore hblock)
  have hrest : back.flatten.find? (fun e => key e = k) = none := by
    apply find_eq_none
    intro e he
    obtain ⟨b, hb, heb⟩ := List.mem_flatten.mp he
    refine key_ne_of_after ?_ (hne b hb) (hback b hb) e heb
    have hall := (List.pairwise_append.mp (List.pairwise_append.mp hs).2.1).2.1
    exact hall.sublist (List.sublist_flatten_of_mem hb)
  rw [List.find?_append, hfront, Option.none_or, List.find?_append, hrest, Option.or_none]

theorem find_flatten_eq_none {blocks : List (List α)} {k : κ} (hs : Sorted key blocks.flatten)
    (hne : ∀ b ∈ blocks, b ≠ []) (h : ∀ b ∈ blocks, ¬ startsBy key k b) :
    blocks.flatten.find? (fun e => key e = k) = none := by
  apply find_eq_none
  intro e he
  obtain ⟨b, hb, heb⟩ := List.mem_flatten.mp he
  exact key_ne_of_after (hs.sublist (List.sublist_flatten_of_mem hb)) (hne b hb)
    (h b hb) e heb

/-- The number of blocks that start at or before a key. -/
def blocksBy (key : α → κ) (k : κ) (blocks : List (List α)) : ℕ :=
  partitionPoint (fun i => (blocks[i]?).any (startsBy key k)) blocks.length 0 blocks.length

/-- The last block that starts at or before a key decides the lookup. -/
theorem find_blocksBy {blocks : List (List α)} (k : κ) (hs : Sorted key blocks.flatten)
    (hne : ∀ b ∈ blocks, b ≠ []) :
    (blocksBy key k blocks = 0 ∧ blocks.flatten.find? (fun e => key e = k) = none) ∨
      ∃ idx block, blocksBy key k blocks = idx + 1 ∧ blocks[idx]? = some block ∧
        blocks.flatten.find? (fun e => key e = k) = block.find? (fun e => key e = k) := by
  obtain ⟨hlow, hhigh⟩ : (∀ i < blocksBy key k blocks, (blocks[i]?).any (startsBy key k)) ∧
      ∀ i, blocksBy key k blocks ≤ i → ¬ (blocks[i]?).any (startsBy key k) := by
    refine partitionPoint_spec (fun i j => startsBy_anti hs hne) (by omega) (by omega)
      (by simp) ?_
    intro i hi
    simp [List.getElem?_eq_none hi]
  cases hcount : blocksBy key k blocks with
  | zero =>
    refine Or.inl ⟨rfl, find_flatten_eq_none hs hne ?_⟩
    intro b hb hstart
    obtain ⟨i, hi⟩ := List.getElem?_of_mem hb
    exact hhigh i (by omega) (by simpa [hi] using hstart)
  | succ idx =>
    obtain ⟨block, hblock, hstart⟩ : ∃ b, blocks[idx]? = some b ∧ startsBy key k b := by
      simpa [Option.any_eq_true] using hlow idx (by omega)
    refine Or.inr ⟨idx, block, rfl, hblock, ?_⟩
    obtain ⟨hlt, rfl⟩ := List.getElem?_eq_some_iff.mp hblock
    have hsplit : blocks = blocks.take idx ++ blocks[idx] :: blocks.drop (idx + 1) := by
      rw [← List.drop_eq_getElem_cons hlt, List.take_append_drop]
    have hback : ∀ b ∈ blocks.drop (idx + 1), ¬ startsBy key k b := by
      intro b hb hstart
      obtain ⟨i, hi⟩ := List.getElem?_of_mem hb
      rw [List.getElem?_drop] at hi
      exact hhigh (idx + 1 + i) (by omega) (by simpa [hi] using hstart)
    rw [hsplit] at hs
    calc blocks.flatten.find? (fun e => key e = k)
        = (blocks.take idx ++ blocks[idx] :: blocks.drop (idx + 1)).flatten.find?
            (fun e => key e = k) := by rw [← hsplit]
      _ = blocks[idx].find? (fun e => key e = k) :=
          find_flatten hs (fun b hb => hne b (List.mem_of_mem_drop hb)) hstart hback

end Blocks

end SkeinDB.Search
