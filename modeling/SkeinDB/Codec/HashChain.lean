import Mathlib.Tactic

/-!
# Hash chains

A chain of entries in which every entry names the hash of the one before it. Where the hash of an
entry determines the entry and no entry has the hash of the empty chain, a hash of the chain
determines the chain up to it.
-/
namespace SkeinDB.Codec
variable {Entry Hash : Type} {prev hash : Entry → Hash} {Sealed : Entry → Prop}
  {start genesis : Hash} {e : Entry} {es fs chain : List Entry} {i j : ℕ}

/-- The hash of the last entry, or the one that the chain starts from. -/
def headHash (hash : Entry → Hash) (start : Hash) (es : List Entry) : Hash :=
  (es.getLast?.map hash).getD start

/-- Every entry is sealed and names the hash of the one before it. -/
def Linked (prev hash : Entry → Hash) (Sealed : Entry → Prop) (start : Hash) :
    List Entry → Prop
  | [] => True
  | e :: es => prev e = start ∧ Sealed e ∧ Linked prev hash Sealed (hash e) es

@[simp] theorem headHash_nil : headHash hash start [] = start := rfl

@[simp] theorem headHash_snoc : headHash hash start (es ++ [e]) = hash e := by
  simp [headHash]

theorem headHash_cons : headHash hash start (e :: es) = headHash hash (hash e) es := by
  induction es using List.reverseRecOn with
  | nil => rfl
  | append_singleton es f _ => rw [← List.cons_append, headHash_snoc, headHash_snoc]

theorem linked_append : Linked prev hash Sealed start (es ++ fs) ↔
    Linked prev hash Sealed start es ∧ Linked prev hash Sealed (headHash hash start es) fs := by
  induction es generalizing start with
  | nil => rw [Linked, true_and, List.nil_append, headHash_nil]
  | cons e es ih => rw [List.cons_append, Linked, Linked, ih, headHash_cons, and_assoc, and_assoc]

theorem linked_snoc : Linked prev hash Sealed start (es ++ [e]) ↔
    Linked prev hash Sealed start es ∧ prev e = headHash hash start es ∧ Sealed e := by
  rw [linked_append, Linked, Linked, and_true]

theorem linked_take (h : Linked prev hash Sealed start es) (n : ℕ) :
    Linked prev hash Sealed start (es.take n) := by
  rw [← List.take_append_drop n es, linked_append] at h
  exact h.1

/-- A segment of a chain is linked to the entry before it. -/
theorem linked_segment (h : Linked prev hash Sealed start es) (i j : ℕ) (hij : i ≤ j) :
    Linked prev hash Sealed (headHash hash start (es.take i)) ((es.take j).drop i) := by
  have htake := linked_take h j
  rw [← List.take_append_drop i (es.take j), linked_append, List.take_take,
    Nat.min_eq_left hij] at htake
  exact htake.2

theorem sealed_of_linked (h : Linked prev hash Sealed start chain) (he : e ∈ chain) : Sealed e := by
  obtain ⟨before, after, rfl⟩ := List.append_of_mem he
  exact (linked_append.mp h).2.2.1

/-- The entry in a position, and the hashes around it. -/
theorem linked_get (h : Linked prev hash Sealed start chain) (hi : i < chain.length) :
    prev chain[i] = headHash hash start (chain.take i) ∧
      headHash hash start (chain.take (i + 1)) = hash chain[i] := by
  have hsnoc : chain.take (i + 1) = chain.take i ++ [chain[i]] := (List.take_append_getElem hi).symm
  have htake := linked_take h (i + 1)
  rw [hsnoc, linked_snoc] at htake
  rw [hsnoc, headHash_snoc]
  exact ⟨htake.2.1, rfl⟩

section Sorted
variable {key : Entry → ℕ} {lo hi : ℕ}

/-- The entries with a key up to a bound are the first ones. -/
theorem filter_le_eq_take (h : es.Pairwise fun e f => key e ≤ key f) :
    ∃ m ≤ es.length, es.filter (key · ≤ hi) = es.take m := by
  induction es with
  | nil => exact ⟨0, le_rfl, rfl⟩
  | cons e es ih =>
    obtain ⟨hfirst, hrest⟩ := List.pairwise_cons.mp h
    by_cases hkey : key e ≤ hi
    · obtain ⟨m, hm, hfilter⟩ := ih hrest
      refine ⟨m + 1, Nat.succ_le_succ hm, ?_⟩
      rw [List.filter_cons, if_pos (decide_eq_true hkey), hfilter, List.take_succ_cons]
    · refine ⟨0, Nat.zero_le _, List.filter_eq_nil_iff.mpr fun f hf => ?_⟩
      rw [decide_eq_true_iff]
      rcases List.mem_cons.mp hf with rfl | hf
      · exact hkey
      · exact fun hle => hkey ((hfirst f hf).trans hle)

/-- The entries whose key is within bounds are a segment, and the keys before it are smaller. -/
theorem filter_eq_segment (h : es.Pairwise fun e f => key e ≤ key f) :
    ∃ i j, i ≤ j ∧ j ≤ es.length ∧
      es.filter (fun e => lo ≤ key e && key e ≤ hi) = (es.take j).drop i ∧
      ∀ k < i, ∀ e ∈ es[k]?, key e < lo := by
  induction es with
  | nil => exact ⟨0, 0, le_rfl, le_rfl, rfl, fun _ hk => absurd hk (Nat.not_lt_zero _)⟩
  | cons e es ih =>
    obtain ⟨hfirst, hrest⟩ := List.pairwise_cons.mp h
    rcases Nat.lt_or_ge (key e) lo with hlow | hlow
    · obtain ⟨i, j, hij, hj, hfilter, hbefore⟩ := ih hrest
      refine ⟨i + 1, j + 1, Nat.succ_le_succ hij, Nat.succ_le_succ hj, ?_, fun k hk f hf => ?_⟩
      · have hout : ¬ (decide (lo ≤ key e) && decide (key e ≤ hi)) = true := by
          rw [decide_eq_false (Nat.not_le.mpr hlow)]
          exact Bool.false_ne_true
        rw [List.filter_cons, if_neg hout, hfilter, List.take_succ_cons, List.drop_succ_cons]
      · rcases k with _ | k
        · cases hf
          exact hlow
        · exact hbefore k (Nat.lt_of_succ_lt_succ hk) f hf
    · have hall : ∀ f ∈ e :: es, lo ≤ key f := by
        intro f hf
        rcases List.mem_cons.mp hf with rfl | hf
        · exact hlow
        · exact hlow.trans (hfirst f hf)
      obtain ⟨m, hm, hfilter⟩ := @filter_le_eq_take Entry (e :: es) key hi h
      refine ⟨0, m, Nat.zero_le _, hm, ?_, fun _ hk => absurd hk (Nat.not_lt_zero _)⟩
      rw [List.drop_zero, ← hfilter]
      refine List.filter_congr fun f hf => ?_
      rw [decide_eq_true (hall f hf), Bool.true_and]

end Sorted

section Injective
variable (hinj : ∀ e f, Sealed e → Sealed f → hash e = hash f → e = f)
  (hgenesis : ∀ e, Sealed e → hash e ≠ genesis)
include hinj hgenesis

/-- No two positions of a chain have the same hash before them. -/
theorem headHash_injective (h : Linked prev hash Sealed genesis chain) (hi : i ≤ chain.length)
    (hj : j ≤ chain.length)
    (hsame : headHash hash genesis (chain.take i) = headHash hash genesis (chain.take j)) :
    i = j := by
  induction i generalizing j with
  | zero =>
    rcases j with _ | j
    · rfl
    · rw [(linked_get h hj).2] at hsame
      exact absurd hsame.symm (hgenesis _ (sealed_of_linked h (List.getElem_mem _)))
  | succ i ih =>
    rw [(linked_get h hi).2] at hsame
    rcases j with _ | j
    · exact absurd hsame (hgenesis _ (sealed_of_linked h (List.getElem_mem _)))
    · rw [(linked_get h hj).2] at hsame
      have hentry := hinj _ _ (sealed_of_linked h (List.getElem_mem _))
        (sealed_of_linked h (List.getElem_mem _)) hsame
      have hprev := (linked_get h hi).1.symm.trans ((congrArg prev hentry).trans (linked_get h hj).1)
      rw [ih (Nat.le_of_succ_le hi) (Nat.le_of_succ_le hj) hprev]

/-- A list of entries between two hashes of a chain is the segment of the chain between them. -/
theorem segment_unique (h : Linked prev hash Sealed genesis chain) (hi : i ≤ chain.length)
    (hj : j ≤ chain.length)
    (hes : Linked prev hash Sealed (headHash hash genesis (chain.take i)) es)
    (hhead : headHash hash (headHash hash genesis (chain.take i)) es =
      headHash hash genesis (chain.take j)) : es = (chain.take j).drop i := by
  induction es using List.reverseRecOn generalizing j with
  | nil =>
    obtain rfl := headHash_injective hinj hgenesis h hi hj hhead
    exact (List.drop_eq_nil_of_le (List.length_take_le _ _)).symm
  | append_singleton es e ih =>
    rw [headHash_snoc] at hhead
    obtain ⟨hinit, hprev, hsealed⟩ := linked_snoc.mp hes
    rcases j with _ | j
    · exact absurd hhead (hgenesis e hsealed)
    · rw [(linked_get h hj).2] at hhead
      obtain rfl := hinj _ _ hsealed (sealed_of_linked h (List.getElem_mem _)) hhead
      rw [(linked_get h hj).1] at hprev
      have hrest := ih (Nat.le_of_succ_le hj) hinit hprev.symm
      have hij : i ≤ j := by
        by_contra hlt
        have hnil : es = [] := hrest.trans (List.drop_eq_nil_of_le (by
          rw [List.length_take]
          omega))
        rw [hnil, headHash_nil] at hprev
        exact hlt (headHash_injective hinj hgenesis h hi (Nat.le_of_succ_le hj) hprev.symm).le
      rw [hrest, ← List.take_append_getElem hj, List.drop_append_of_le_length]
      rw [List.length_take]
      omega

end Injective

end SkeinDB.Codec
