import SkeinDB.Transition.Replay

/-!
# Reading a log in pages

The items of a log ascend. A reader keeps the position up to which it has read, and takes the
next page of those items that it wants. Pages that start where the one before ended give every
wanted item once and in order.
-/
namespace SkeinDB.Transition
variable {ε : Type*} (key : ε → ℕ)

/-- The items above one position up to another. -/
def between (p q : ℕ) (log : List ε) : List ε := log.filter fun e => p < key e ∧ key e ≤ q

/-- Pass over the log and take wanted items above the position until the page is full. -/
def readPage (wants : ε → Bool) (after limit : ℕ) : List ε → List ε → ℕ → List ε × ℕ
  | [], page, next => (page, next)
  | e :: es, page, next =>
    if key e ≤ after then readPage wants after limit es page next
    else if wants e then
      let page := page ++ [e]
      if limit ≤ page.length then (page, key e) else readPage wants after limit es page (key e)
    else readPage wants after limit es page next

/-- What a reader wants of a log above a position. -/
def pending (wants : ε → Bool) (after : ℕ) (log : List ε) : List ε :=
  log.filter fun e => after < key e ∧ wants e

/-- The position of the last item, or the one from which reading began. -/
def pageEnd (after : ℕ) (page : List ε) : ℕ := (page.getLast?.map key).getD after

variable {key} {p q r after limit : ℕ} {log page : List ε} {wants : ε → Bool}

@[simp] theorem between_nil : between key p q [] = [] := rfl

theorem mem_between {e : ε} : e ∈ between key p q log ↔ e ∈ log ∧ p < key e ∧ key e ≤ q := by
  simp [between]

theorem mem_pending {e : ε} :
    e ∈ pending key wants after log ↔ e ∈ log ∧ after < key e ∧ wants e = true := by
  simp [pending]

theorem between_append (log log' : List ε) :
    between key p q (log ++ log') = between key p q log ++ between key p q log' :=
  List.filter_append ..

theorem between_self : between key p p log = [] := by
  rw [between, List.filter_eq_nil_iff]
  simp

theorem between_of_above (h : ∀ e ∈ log, q < key e) : between key p q log = [] := by
  rw [between, List.filter_eq_nil_iff]
  intro e he
  simpa using fun _ => h e he

/-- Of three positions the items between the outer ones are those of the two parts. -/
theorem between_append_between (hlog : log.Pairwise (key · < key ·)) (hpq : p ≤ q) (hqr : q ≤ r) :
    between key p q log ++ between key q r log = between key p r log := by
  have hsplit := filter_le_append_filter_lt (hlog.filter fun e => p < key e ∧ key e ≤ r) q
  rw [List.filter_filter, List.filter_filter] at hsplit
  refine Eq.trans (congrArg₂ _ ?_ ?_) hsplit
  · refine List.filter_congr fun e _ => ?_
    rw [← Bool.decide_and]
    exact decide_eq_decide.mpr ⟨fun h => ⟨h.2, h.1, h.2.trans hqr⟩, fun h => ⟨h.2.1, h.1⟩⟩
  · refine List.filter_congr fun e _ => ?_
    rw [← Bool.decide_and]
    exact decide_eq_decide.mpr
      ⟨fun h => ⟨h.1, hpq.trans_lt h.1, h.2⟩, fun h => ⟨h.1, h.2.2⟩⟩

theorem pending_cons_of {e : ε} (hkey : after < key e) (hwants : wants e = true) :
    pending key wants after (e :: log) = e :: pending key wants after log :=
  List.filter_cons_of_pos (by simp [hkey, hwants])

theorem pending_cons_of_not {e : ε} (h : after < key e → wants e = false) :
    pending key wants after (e :: log) = pending key wants after log :=
  List.filter_cons_of_neg (by simpa using h)

theorem pageEnd_concat (page : List ε) (e : ε) : pageEnd key after (page ++ [e]) = key e := by
  simp [pageEnd]

/-- A page is the beginning of what is wanted, and never empty unless nothing is wanted. -/
theorem readPage_eq (log page : List ε) (hpage : page.length < max limit 1) :
    readPage key wants after limit log page (pageEnd key after page) =
      let items := page ++ (pending key wants after log).take (max limit 1 - page.length)
      (items, pageEnd key after items) := by
  induction log generalizing page with
  | nil => simp [readPage, pending]
  | cons e log ih =>
    rw [readPage]
    by_cases hkey : key e ≤ after
    · rw [if_pos hkey, pending_cons_of_not fun h => absurd h (not_lt.mpr hkey)]
      exact ih page hpage
    · rw [if_neg hkey]
      cases hwants : wants e with
      | false =>
        rw [pending_cons_of_not fun _ => hwants]
        exact ih page hpage
      | true =>
        rw [pending_cons_of (not_le.mp hkey) hwants]
        have hlength : (page ++ [e]).length = page.length + 1 := List.length_append
        have htake : page ++ (e :: pending key wants after log).take (max limit 1 - page.length) =
            page ++ [e] ++ (pending key wants after log).take
              (max limit 1 - (page ++ [e]).length) := by
          rw [List.append_assoc, hlength]
          obtain ⟨n, hn⟩ : ∃ n, max limit 1 - page.length = n + 1 :=
            ⟨max limit 1 - page.length - 1, by omega⟩
          rw [hn, List.take_succ_cons, show max limit 1 - (page.length + 1) = n by omega]
          rfl
        dsimp only
        rw [htake, if_pos rfl]
        by_cases hfull : limit ≤ (page ++ [e]).length
        · have hzero : max limit 1 - (page ++ [e]).length = 0 := by omega
          rw [if_pos hfull, hzero, List.take_zero, List.append_nil, pageEnd_concat]
        · rw [if_neg hfull, ← @pageEnd_concat _ key after page e]
          exact ih (page ++ [e]) (by omega)

theorem sorted_pending (hlog : log.Pairwise (key · < key ·)) :
    (pending key wants after log).Pairwise (key · < key ·) :=
  hlog.filter _

/-- The first items of an ascending list are those up to the position of the last of them. -/
theorem filter_pageEnd_take (hlog : log.Pairwise (key · < key ·)) {n : ℕ} (hn : 0 < n) :
    log.filter (key · ≤ pageEnd key after (log.take n)) = log.take n := by
  induction log generalizing n after with
  | nil => simp
  | cons e log ih =>
    obtain ⟨hfirst, hrest⟩ := List.pairwise_cons.mp hlog
    obtain ⟨n, rfl⟩ : ∃ m, n = m + 1 := ⟨n - 1, by omega⟩
    rw [List.take_succ_cons]
    rcases Nat.eq_zero_or_pos n with rfl | hpos
    · have hnone : log.filter (key · ≤ key e) = [] := by
        rw [List.filter_eq_nil_iff]
        intro d hd
        simpa using hfirst d hd
      have hend : pageEnd key after (e :: log.take 0) = key e := rfl
      rw [hend, List.filter_cons_of_pos (by simp), hnone, List.take_zero]
    · have hend : pageEnd key after (e :: log.take n) = pageEnd key (key e) (log.take n) := by
        rcases hlast : log.take n with _ | ⟨d, ds⟩
        · simp [pageEnd]
        · simp [pageEnd, List.getLast?_cons]
      have hle : key e ≤ pageEnd key (key e) (log.take n) := by
        rw [pageEnd]
        rcases hlast : (log.take n).getLast? with _ | d
        · exact le_rfl
        · exact (hfirst d (List.mem_of_mem_take (List.mem_of_getLast? hlast))).le
      rw [hend, List.filter_cons, decide_eq_true hle, if_pos rfl, ih hrest hpos]

theorem le_pageEnd (h : ∀ e ∈ page, after < key e) : after ≤ pageEnd key after page := by
  rw [pageEnd]
  rcases hlast : page.getLast? with _ | e
  · exact le_rfl
  · exact (h e (List.mem_of_getLast? hlast)).le

theorem pageEnd_le {n : ℕ} (hafter : after ≤ n) (h : ∀ e ∈ page, key e ≤ n) :
    pageEnd key after page ≤ n := by
  rw [pageEnd]
  rcases hlast : page.getLast? with _ | e
  · exact hafter
  · exact h e (List.mem_of_getLast? hlast)

/-- A page holds exactly what is wanted between its two ends. -/
theorem filter_between_pageEnd (hlog : log.Pairwise (key · < key ·)) {n : ℕ} (hn : 0 < n) :
    (between key after (pageEnd key after ((pending key wants after log).take n)) log).filter wants =
      (pending key wants after log).take n := by
  refine Eq.trans ?_ (@filter_pageEnd_take _ key after _ (sorted_pending hlog) n hn)
  rw [between, pending, List.filter_filter, List.filter_filter]
  refine List.filter_congr fun e _ => ?_
  by_cases hwants : wants e = true <;> by_cases hafter : after < key e <;> simp [hwants, hafter]

/-- A page that is not full leaves nothing that is wanted. -/
theorem unwanted_of_short (hlog : log.Pairwise (key · < key ·)) {n : ℕ}
    (hshort : ((pending key wants after log).take n).length < n) {e : ε} (he : e ∈ log)
    (habove : pageEnd key after ((pending key wants after log).take n) < key e) :
    wants e = false := by
  by_contra hwants
  rw [Bool.not_eq_false] at hwants
  have hall : (pending key wants after log).take n = pending key wants after log :=
    List.take_of_length_le (by rw [List.length_take] at hshort; omega)
  have hafter : after < key e := by
    refine lt_of_le_of_lt (le_pageEnd fun d hd => ?_) habove
    exact (mem_pending.mp (List.mem_of_mem_take hd)).2.1
  have hmem : e ∈ pending key wants after log := mem_pending.mpr ⟨he, hafter, hwants⟩
  rw [← hall, ← @filter_pageEnd_take _ key after _ (sorted_pending hlog) n (by omega)] at hmem
  have hle := List.of_mem_filter hmem
  rw [decide_eq_true_eq] at hle
  exact absurd habove (not_lt.mpr hle)

end SkeinDB.Transition
