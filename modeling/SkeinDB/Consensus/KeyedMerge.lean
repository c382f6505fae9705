import SkeinDB.Consensus.Newest
import Mathlib.Data.List.MinMax

/-!
# Merging by key

A collection keeps one value for each key, the first of the newest ones it has been given, and
lists them by key. Merging two collections is collecting the values of both. That is associative and
idempotent, the rank of a key in a merge is the greater of its ranks, and it is commutative where two
values with one key and one rank are equal.
-/
namespace SkeinDB.Consensus
variable {α κ β : Type*} [LinearOrder κ] [LinearOrder β] (key : α → κ) (rank : α → β)

def insertNewest (a : α) : List α → List α
  | [] => [a]
  | b :: rest =>
    if key a < key b then a :: b :: rest
    else if key a = key b then newer rank b a :: rest
    else b :: insertNewest a rest

def collectNewest (as : List α) : List α :=
  as.foldl (fun collected a => insertNewest key rank a collected) []

/-- The value that a collection keeps for a key. -/
def kept (k : κ) (as : List α) : Option α :=
  as.foldl (fun best a => best.merge (newer rank) (if key a = k then some a else none)) none

/-- The greatest rank that values with a key have. -/
def rankAt (k : κ) (as : List α) : WithBot β := ((as.filter (key · = k)).map rank).maximum

section Kept
variable {key rank} {k : κ} {a : α} {as bs : List α}

theorem foldl_kept (best : Option α) (as : List α) :
    as.foldl (fun best a => best.merge (newer rank) (if key a = k then some a else none)) best =
      best.merge (newer rank) (kept key rank k as) := by
  induction as generalizing best with
  | nil => rw [kept, List.foldl_nil, List.foldl_nil, Option.merge_none_right]
  | cons a as ih =>
    rw [kept, List.foldl_cons, List.foldl_cons, ih, ih, Option.merge_none_left]
    exact Std.Associative.assoc _ _ _

theorem kept_cons (a : α) (as : List α) :
    kept key rank k (a :: as) =
      Option.merge (newer rank) (if key a = k then some a else none) (kept key rank k as) := by
  rw [kept, List.foldl_cons, foldl_kept, Option.merge_none_left]

theorem kept_append (as bs : List α) :
    kept key rank k (as ++ bs) =
      Option.merge (newer rank) (kept key rank k as) (kept key rank k bs) := by
  rw [kept, List.foldl_append, foldl_kept]
  rfl

theorem kept_eq_none (h : ∀ a ∈ as, key a ≠ k) : kept key rank k as = none := by
  induction as with
  | nil => rfl
  | cons a as ih =>
    rw [kept_cons, if_neg (h a List.mem_cons_self), Option.merge_none_left]
    exact ih fun b hb => h b (List.mem_cons_of_mem a hb)

theorem kept_cases (h : kept key rank k as = some a) : a ∈ as ∧ key a = k := by
  induction as generalizing a with
  | nil => cases h
  | cons b as ih =>
    rw [kept_cons, Option.merge_eq_some_iff] at h
    rcases h with ⟨hb, -⟩ | ⟨-, hrest⟩ | ⟨x, y, hb, hrest, hnewer⟩
    · rw [Option.ite_none_right_eq_some] at hb
      obtain ⟨hkey, hsame⟩ := hb
      cases hsame
      exact ⟨List.mem_cons_self, hkey⟩
    · exact ⟨List.mem_cons_of_mem b (ih hrest).1, (ih hrest).2⟩
    · rw [Option.ite_none_right_eq_some] at hb
      obtain ⟨hkey, hsame⟩ := hb
      cases hsame
      rcases newer_cases rank b y with h | h
      · cases hnewer.symm.trans h
        exact ⟨List.mem_cons_self, hkey⟩
      · cases hnewer.symm.trans h
        exact ⟨List.mem_cons_of_mem b (ih hrest).1, (ih hrest).2⟩

/-- The rank of what is kept is the greatest. -/
theorem rankAt_eq (k : κ) (as : List α) :
    rankAt key rank k as = (kept key rank k as).elim ⊥ fun a => (rank a : WithBot β) := by
  induction as with
  | nil => rfl
  | cons a as ih =>
    rw [kept_cons]
    by_cases ha : key a = k
    · rw [rankAt, List.filter_cons_of_pos (by simpa using ha), List.map_cons, List.maximum_cons]
      change max _ (rankAt key rank k as) = _
      rw [ih, if_pos ha]
      rcases kept key rank k as with _ | b
      · exact max_eq_left bot_le
      · change max (rank a : WithBot β) (rank b) = (rank (newer rank a b) : WithBot β)
        rw [rank_newer rank a b, WithBot.coe_max]
    · rw [rankAt, List.filter_cons_of_neg (by simpa using ha), if_neg ha, Option.merge_none_left]
      exact ih

end Kept

section Collect
variable {key rank} {k : κ} {a : α} {as bs cs : List α}

theorem lt_of_mem_insertNewest {b : α} (ha : k < key a) (has : ∀ b ∈ as, k < key b)
    (hb : b ∈ insertNewest key rank a as) : k < key b := by
  induction as with
  | nil =>
    rw [insertNewest, List.mem_singleton] at hb
    rw [hb]
    exact ha
  | cons c as ih =>
    rw [insertNewest] at hb
    split_ifs at hb with hlt heq
    · rcases List.mem_cons.mp hb with rfl | hb
      · exact ha
      · exact has b hb
    · rcases List.mem_cons.mp hb with rfl | hb
      · rcases newer_cases rank c a with h | h
        · rw [h]
          exact has c List.mem_cons_self
        · rw [h]
          exact ha
      · exact has b (List.mem_cons_of_mem c hb)
    · rcases List.mem_cons.mp hb with rfl | hb
      · exact has b List.mem_cons_self
      · exact ih (fun d hd => has d (List.mem_cons_of_mem c hd)) hb

theorem insertNewest_sorted (h : as.Pairwise (key · < key ·)) :
    (insertNewest key rank a as).Pairwise (key · < key ·) := by
  induction as with
  | nil => exact List.pairwise_singleton _ _
  | cons c as ih =>
    obtain ⟨hfirst, hrest⟩ := List.pairwise_cons.mp h
    rw [insertNewest]
    split_ifs with hlt heq
    · refine List.pairwise_cons.mpr ⟨?_, h⟩
      intro d hd
      rcases List.mem_cons.mp hd with rfl | hd
      · exact hlt
      · exact hlt.trans (hfirst d hd)
    · refine List.pairwise_cons.mpr ⟨?_, hrest⟩
      intro d hd
      rcases newer_cases rank c a with h | h
      · rw [h]
        exact hfirst d hd
      · rw [h, heq]
        exact hfirst d hd
    · have hgt : key c < key a := lt_of_le_of_ne (not_lt.mp hlt) (Ne.symm heq)
      exact List.pairwise_cons.mpr
        ⟨fun d hd => lt_of_mem_insertNewest hgt hfirst hd, ih hrest⟩

theorem kept_insertNewest (h : as.Pairwise (key · < key ·)) :
    kept key rank k (insertNewest key rank a as) =
      Option.merge (newer rank) (kept key rank k as) (if key a = k then some a else none) := by
  induction as with
  | nil => rw [insertNewest, kept_cons, kept, List.foldl_nil, Option.merge_none_left,
      Option.merge_none_right]
  | cons c as ih =>
    obtain ⟨hfirst, hrest⟩ := List.pairwise_cons.mp h
    rcases lt_trichotomy (key a) (key c) with hlt | heq | hgt
    · rw [insertNewest, if_pos hlt, kept_cons a]
      by_cases hk : key a = k
      · have hnone : kept key rank k (c :: as) = none := by
          refine kept_eq_none ?_
          intro d hd
          rcases List.mem_cons.mp hd with rfl | hd
          · exact hk ▸ hlt.ne'
          · exact hk ▸ (hlt.trans (hfirst d hd)).ne'
        rw [hnone, if_pos hk, Option.merge_none_left, Option.merge_none_right]
      · rw [if_neg hk, Option.merge_none_left, Option.merge_none_right]
    · rw [insertNewest, if_neg heq.not_lt, if_pos heq, kept_cons, kept_cons]
      have hnewer : key (newer rank c a) = key c := by
        rcases newer_cases rank c a with h | h
        · rw [h]
        · rw [h, heq]
      rw [hnewer, heq]
      by_cases hk : key c = k
      · have hnone : kept key rank k as = none :=
          kept_eq_none fun d hd => hk ▸ (hfirst d hd).ne'
        rw [hnone, if_pos hk, if_pos hk, if_pos hk, Option.merge_none_right,
          Option.merge_none_right, Option.merge_some_some]
      · rw [if_neg hk, if_neg hk, if_neg hk, Option.merge_none_left, Option.merge_none_right]
    · rw [insertNewest, if_neg hgt.not_gt, if_neg hgt.ne', kept_cons, kept_cons, ih hrest]
      exact (Std.Associative.assoc _ _ _).symm

theorem foldl_insertNewest {collected : List α} (h : collected.Pairwise (key · < key ·))
    (as : List α) :
    (as.foldl (fun m a => insertNewest key rank a m) collected).Pairwise (key · < key ·) ∧
      ∀ k, kept key rank k (as.foldl (fun m a => insertNewest key rank a m) collected) =
        Option.merge (newer rank) (kept key rank k collected) (kept key rank k as) := by
  induction as generalizing collected with
  | nil => exact ⟨h, fun k => (Option.merge_none_right).symm⟩
  | cons a as ih =>
    have hinsert : (insertNewest key rank a collected).Pairwise (key · < key ·) :=
      insertNewest_sorted h
    obtain ⟨hsorted, hkept⟩ := ih hinsert
    refine ⟨hsorted, fun k => ?_⟩
    rw [List.foldl_cons, hkept, kept_insertNewest h, kept_cons]
    exact Std.Associative.assoc _ _ _

/-- A collection lists its keys in order. -/
theorem collectNewest_sorted (as : List α) :
    (collectNewest key rank as).Pairwise (key · < key ·) :=
  (foldl_insertNewest List.Pairwise.nil as).1

@[simp] theorem kept_collectNewest (k : κ) (as : List α) :
    kept key rank k (collectNewest key rank as) = kept key rank k as := by
  rw [collectNewest, (foldl_insertNewest List.Pairwise.nil as).2]
  exact Option.merge_none_left

theorem sorted_keys_nodup (h : as.Pairwise (key · < key ·)) : (as.map key).Nodup :=
  List.pairwise_map.mpr (h.imp fun hlt => hlt.ne)

/-- Of values with different keys all are kept. -/
theorem mem_iff_kept (rank : α → β) (h : (as.map key).Nodup) :
    a ∈ as ↔ kept key rank (key a) as = some a := by
  refine ⟨fun ha => ?_, fun hkept => (kept_cases hkept).1⟩
  induction as with
  | nil => simp at ha
  | cons c as ih =>
    obtain ⟨hfirst, hrest⟩ := List.nodup_cons.mp h
    rw [kept_cons]
    rcases List.mem_cons.mp ha with rfl | ha
    · have hnone : kept key rank (key a) as = none :=
        kept_eq_none fun d hd heq => hfirst (List.mem_map.mpr ⟨d, hd, heq⟩)
      rw [hnone, if_pos rfl, Option.merge_none_right]
    · have hne : key c ≠ key a := fun heq => hfirst (List.mem_map.mpr ⟨a, ha, heq.symm⟩)
      rw [if_neg hne, Option.merge_none_left]
      exact ih hrest ha

theorem perm_of_kept (has : (as.map key).Nodup) (hbs : (bs.map key).Nodup)
    (h : ∀ k, kept key rank k as = kept key rank k bs) : as.Perm bs := by
  rw [List.perm_ext_iff_of_nodup has.of_map hbs.of_map]
  intro a
  rw [mem_iff_kept rank has, mem_iff_kept rank hbs, h]

/-- A list ordered by key is determined by what it keeps. -/
theorem eq_of_kept (has : as.Pairwise (key · < key ·)) (hbs : bs.Pairwise (key · < key ·))
    (h : ∀ k, kept key rank k as = kept key rank k bs) : as = bs := by
  have hperm := perm_of_kept (sorted_keys_nodup has) (sorted_keys_nodup hbs) h
  exact hperm.eq_of_pairwise (fun a b _ _ hab hba => absurd hab hba.not_gt) has hbs

theorem collectNewest_congr (h : ∀ k, kept key rank k as = kept key rank k bs) :
    collectNewest key rank as = collectNewest key rank bs :=
  eq_of_kept (collectNewest_sorted as) (collectNewest_sorted bs) fun k => by
    rw [kept_collectNewest, kept_collectNewest, h k]

end Collect

section Merge
variable {key rank} {k : κ} {as bs cs : List α}

theorem mergeNewest_assoc (as bs cs : List α) :
    collectNewest key rank (collectNewest key rank (as ++ bs) ++ cs) =
      collectNewest key rank (as ++ collectNewest key rank (bs ++ cs)) := by
  refine collectNewest_congr ?_
  intro k
  rw [kept_append, kept_append, kept_collectNewest, kept_collectNewest, kept_append, kept_append]
  exact Std.Associative.assoc _ _ _

theorem mergeNewest_self (as : List α) :
    collectNewest key rank (as ++ as) = collectNewest key rank as := by
  refine collectNewest_congr ?_
  intro k
  rw [kept_append]
  exact Std.IdempotentOp.idempotent _

theorem mergeNewest_comm
    (h : ∀ k, ∀ a ∈ kept key rank k as, ∀ b ∈ kept key rank k bs, rank a = rank b → a = b) :
    collectNewest key rank (as ++ bs) = collectNewest key rank (bs ++ as) := by
  refine collectNewest_congr ?_
  intro k
  rw [kept_append, kept_append]
  rcases has : kept key rank k as with _ | a
  · rw [Option.merge_none_left, Option.merge_none_right]
  · rcases hbs : kept key rank k bs with _ | b
    · rw [Option.merge_none_left, Option.merge_none_right]
    · rw [Option.merge_some_some, Option.merge_some_some, newer_comm_iff.mpr (h k a has b hbs)]

/-- The merge is commutative exactly where the newest values of a key are equal or one is newer. -/
theorem mergeNewest_comm_iff :
    collectNewest key rank (as ++ bs) = collectNewest key rank (bs ++ as) ↔
      ∀ k, ∀ a ∈ kept key rank k as, ∀ b ∈ kept key rank k bs, rank a = rank b → a = b := by
  refine ⟨?_, mergeNewest_comm⟩
  intro h k a ha b hb
  have hkept := congrArg (kept key rank k) h
  rw [kept_collectNewest, kept_collectNewest, kept_append, kept_append, ha, hb,
    Option.merge_some_some, Option.merge_some_some, Option.some.injEq] at hkept
  exact newer_comm_iff.mp hkept

/-- The rank of a key in a merge is the greater of its ranks. -/
theorem rankAt_merge (k : κ) (as bs : List α) :
    rankAt key rank k (collectNewest key rank (as ++ bs)) =
      max (rankAt key rank k as) (rankAt key rank k bs) := by
  rw [rankAt_eq, rankAt_eq, rankAt_eq, kept_collectNewest, kept_append]
  rcases kept key rank k as with _ | a
  · rw [Option.merge_none_left]
    exact (max_eq_right bot_le).symm
  · rcases kept key rank k bs with _ | b
    · rw [Option.merge_none_right]
      exact (max_eq_left bot_le).symm
    · change (rank (newer rank a b) : WithBot β) = max (rank a : WithBot β) (rank b)
      rw [rank_newer rank a b, WithBot.coe_max]

/-- Collecting values with different keys only puts them in order. -/
theorem collectNewest_perm (h : (as.map key).Nodup) : (collectNewest key rank as).Perm as :=
  perm_of_kept (sorted_keys_nodup (collectNewest_sorted as)) h fun k => kept_collectNewest k as

end Merge

end SkeinDB.Consensus
