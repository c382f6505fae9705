import SkeinDB.Queries.Select
import SkeinDB.Tables.Edits

/-!
# Rows as of a time

A row has one time, that of its creation, of its last change or of its deletion. After a time, the
rows that are visible at it are among those that were live then as long as no row that was not live
then is deleted and no deleted row is taken up again.
-/
namespace SkeinDB.Queries
open SkeinDB.Tables

/-- Edits one after another, each of them valid where it is made. -/
inductive EditChain : List RowEntry → List RowEdit → List RowEntry → Prop
  | nil {rows} : EditChain rows [] rows
  | cons {rows rows' e es} (valid : e.Valid rows) (rest : EditChain (e.apply rows) es rows') :
      EditChain rows (e :: es) rows'

/-- The rows that edits lead to. -/
def rowsAfter (es : List RowEdit) (rows : List RowEntry) : List RowEntry :=
  es.foldl (fun rows e => e.apply rows) rows

/-- The edits that were made by a time. -/
def madeBy (ts : ℕ) (es : List RowEdit) : List RowEdit := es.filter (·.time ≤ ts)

/-- The row in a position was live at a time. -/
def LiveAt (ts : ℕ) (es : List RowEdit) (rows : List RowEntry) (i : ℕ) : Prop :=
  ∃ entry, (rowsAfter (madeBy ts es) rows)[i]? = some entry ∧ entry.deleted = false

/-- The edit takes up no deleted row, and deletes only rows that were live at the time. -/
def RowEdit.Leaves (ts : ℕ) (live : ℕ → Prop) (e : RowEdit) : Prop :=
  ts < e.time → e.kind ≠ .revive ∧ e.kind ≠ .embedDeleted ∧ (e.kind = .delete → live e.idx)

section Chain
variable {rows rows' rows'' : List RowEntry} {es fs : List RowEdit} {e : RowEdit} {ts i : ℕ}
  {entry : RowEntry}

theorem EditChain.append (h : EditChain rows es rows') (h' : EditChain rows' fs rows'') :
    EditChain rows (es ++ fs) rows'' := by
  induction h with
  | nil => exact h'
  | cons valid _ ih => exact .cons valid (ih h')

theorem EditChain.split (h : EditChain rows (es ++ fs) rows'') :
    ∃ rows', EditChain rows es rows' ∧ EditChain rows' fs rows'' := by
  induction es generalizing rows with
  | nil => exact ⟨rows, .nil, h⟩
  | cons e es ih =>
    cases h with
    | cons valid rest =>
      obtain ⟨rows', hes, hfs⟩ := ih rest
      exact ⟨rows', .cons valid hes, hfs⟩

theorem EditChain.rowsAfter (h : EditChain rows es rows') : rows' = rowsAfter es rows := by
  induction h with
  | nil => rfl
  | cons _ _ ih => exact ih

theorem chain_of_edited {now : ℕ → ℕ} {lo hi : ℕ} (h : Edited now lo rows es rows' hi) :
    EditChain rows es rows' := by
  induction h with
  | nil _ => exact .nil
  | cons _ _ valid _ ih => exact .cons valid ih

theorem RowEdit.apply_of_ne (hkind : e.kind ≠ .insert) : e.apply rows = rows.set e.idx e.entry := by
  unfold RowEdit.apply
  split
  · rename_i hinsert
    exact absurd hinsert hkind
  · rfl

theorem RowEdit.apply_insert (hkind : e.kind = .insert) : e.apply rows = rows ++ [e.entry] := by
  unfold RowEdit.apply
  rw [hkind]

/-- The entry of the position that is edited, and the others. -/
theorem getElem?_apply (valid : e.Valid rows) (i : ℕ) :
    (e.apply rows)[i]? = if i = e.idx then some e.entry else rows[i]? := by
  by_cases hinsert : e.kind = .insert
  · rw [RowEdit.Valid, if_pos hinsert] at valid
    rw [RowEdit.apply_insert hinsert, valid.1]
    split
    · rename_i hi
      rw [hi, List.getElem?_concat_length]
    · rename_i hi
      rcases Nat.lt_or_gt_of_ne hi with hlt | hgt
      · rw [List.getElem?_append_left hlt]
      · rw [List.getElem?_eq_none (by simp; omega), List.getElem?_eq_none (by omega)]
  · rw [RowEdit.Valid, if_neg hinsert] at valid
    obtain ⟨old, hold, -⟩ := valid
    rw [RowEdit.apply_of_ne hinsert]
    split
    · rename_i hi
      rw [hi, List.getElem?_set_self (List.getElem?_eq_some_iff.mp hold).1]
    · rename_i hi
      rw [List.getElem?_set_ne (Ne.symm hi)]

/-- A row that no edit is about stays. -/
theorem EditChain.untouched (h : EditChain rows es rows') (hes : ∀ e ∈ es, e.idx ≠ i) :
    rows'[i]? = rows[i]? := by
  induction h with
  | nil => rfl
  | @cons rows rows' e es valid _ ih =>
    rw [ih fun f hf => hes f (List.mem_cons_of_mem _ hf), getElem?_apply valid,
      if_neg (Ne.symm (hes e List.mem_cons_self))]

/-- An edit stamps its row, and leaves the time of one that is merged. -/
theorem RowEdit.stamped (valid : e.Valid rows) : e.entry.commitTsMs = e.time ∨
    ∃ old, rows[e.idx]? = some old ∧ e.entry.commitTsMs = old.commitTsMs := by
  by_cases hinsert : e.kind = .insert
  · rw [RowEdit.Valid, if_pos hinsert] at valid
    exact .inl valid.2.2.1
  · rw [RowEdit.Valid, if_neg hinsert] at valid
    obtain ⟨old, hold, hchanges⟩ := valid
    unfold RowEdit.Changes at hchanges
    rcases hk : e.kind with _ | _ | _ | _ | _ | _ | _ <;> simp only [hk] at hchanges
    · exact .inl hchanges.2.2.1
    · exact .inl hchanges.2.2.1
    · exact .inr ⟨old, hold, hchanges.2.2.1⟩
    · exact .inr ⟨old, hold, hchanges.2.2.1⟩
    · exact .inl hchanges.2.2.1
    · exact .inl hchanges.2.2.1

theorem EditChain.stamps (h : EditChain rows es rows') (hes : ∀ e ∈ es, e.time ≤ ts)
    (hrows : ∀ (i : ℕ) (entry : RowEntry), rows[i]? = some entry → entry.commitTsMs ≤ ts) :
    ∀ (i : ℕ) (entry : RowEntry), rows'[i]? = some entry → entry.commitTsMs ≤ ts := by
  induction h with
  | nil => exact hrows
  | @cons rows rows' e es valid _ ih =>
    refine ih (fun f hf => hes f (List.mem_cons_of_mem _ hf)) fun i entry hentry => ?_
    rw [getElem?_apply valid] at hentry
    split at hentry
    · cases hentry
      rcases RowEdit.stamped valid with htime | ⟨old, hold, htime⟩
      · exact htime ▸ hes e List.mem_cons_self
      · exact htime ▸ hrows _ old hold
    · exact hrows i entry hentry

theorem visible_iff : rowVisibleAt (some ts) entry =
    if entry.deleted then decide (ts < entry.commitTsMs) else decide (entry.commitTsMs ≤ ts) := by
  unfold rowVisibleAt
  dsimp only
  split
  · rename_i hzero
    rw [hzero]
    cases entry.deleted <;> simp
  · rfl

/-- Only rows in positions that were live are visible. -/
def OnlyLive (ts : ℕ) (live : ℕ → Prop) (rows : List RowEntry) : Prop :=
  ∀ (i : ℕ) (entry : RowEntry), rows[i]? = some entry → rowVisibleAt (some ts) entry = true → live i

/-- An edit after the time makes no row visible that was not live, if it is one of those that
leave the others alone. -/
theorem OnlyLive.edit {live : ℕ → Prop} (h : OnlyLive ts live rows) (valid : e.Valid rows)
    (hlate : ts < e.time) (hleaves : RowEdit.Leaves ts live e) : OnlyLive ts live (e.apply rows) := by
  intro i entry hentry hvisible
  rw [getElem?_apply valid] at hentry
  split at hentry
  · rename_i hi
    subst hi
    cases hentry
    obtain ⟨hrevive, hembed, hdelete⟩ := hleaves hlate
    have hstamped : e.entry.deleted = false → e.entry.commitTsMs = e.time → live e.idx := by
      intro hdel htime
      rw [visible_iff, hdel, htime] at hvisible
      have hearly : e.time ≤ ts := by simpa using hvisible
      omega
    by_cases hinsert : e.kind = .insert
    · rw [RowEdit.Valid, if_pos hinsert] at valid
      exact hstamped valid.2.1 valid.2.2.1
    · rw [RowEdit.Valid, if_neg hinsert] at valid
      obtain ⟨old, hold, hchanges⟩ := valid
      unfold RowEdit.Changes at hchanges
      rcases hk : e.kind with _ | _ | _ | _ | _ | _ | _ <;> simp only [hk] at hchanges
      · exact hstamped hchanges.2.1 hchanges.2.2.1
      · exact hdelete hk
      · refine h e.idx old hold ?_
        rw [visible_iff, hchanges.1, ← hchanges.2.2.1]
        rw [visible_iff, hchanges.2.1] at hvisible
        exact hvisible
      · exact absurd hk hrevive
      · exact hstamped hchanges.2.1 hchanges.2.2.1
      · exact absurd hk hembed
  · exact h i entry hentry hvisible

theorem OnlyLive.edits {live : ℕ → Prop} (h : EditChain rows es rows') (hrows : OnlyLive ts live rows)
    (hes : ∀ e ∈ es, ts < e.time ∧ RowEdit.Leaves ts live e) : OnlyLive ts live rows' := by
  induction h with
  | nil => exact hrows
  | @cons rows rows' e es valid _ ih =>
    obtain ⟨hlate, hleaves⟩ := hes e List.mem_cons_self
    exact ih (hrows.edit valid hlate hleaves) fun f hf => hes f (List.mem_cons_of_mem _ hf)

/-- Edits in the order of their times are those made by a time and then the others. -/
theorem madeBy_append (hsorted : (es.map RowEdit.time).Pairwise (· ≤ ·)) :
    madeBy ts es ++ es.filter (ts < ·.time) = es := by
  induction es with
  | nil => rfl
  | cons e es ih =>
    obtain ⟨hfirst, hsorted⟩ := List.pairwise_cons.mp hsorted
    by_cases htime : e.time ≤ ts
    · rw [madeBy, List.filter_cons_of_pos (by simpa using htime),
        List.filter_cons_of_neg (by simpa using htime)]
      exact congrArg (e :: ·) (ih hsorted)
    · have hlate : ∀ f ∈ e :: es, ts < f.time := by
        intro f hf
        rcases List.mem_cons.mp hf with rfl | hf
        · omega
        · have := hfirst f.time (List.mem_map_of_mem hf)
          omega
      rw [madeBy, List.filter_eq_nil_iff.mpr fun f hf => by simpa using hlate f hf,
        List.filter_eq_self.mpr fun f hf => by simpa using hlate f hf]
      rfl

/-- What a run of edits from rows of before the time makes of them. -/
structure AsOfRun (ts : ℕ) (rows : List RowEntry) (es : List RowEdit) (rows' : List RowEntry) :
    Prop where
  chain : EditChain rows es rows'
  sorted : (es.map RowEdit.time).Pairwise (· ≤ ·)
  stamps : ∀ (i : ℕ) (entry : RowEntry), rows[i]? = some entry → entry.commitTsMs ≤ ts
  leaves : ∀ e ∈ es, RowEdit.Leaves ts (LiveAt ts es rows) e

/-- The rows as they were at the time, from which the later edits lead on. -/
theorem AsOfRun.cut (h : AsOfRun ts rows es rows') :
    EditChain (rowsAfter (madeBy ts es) rows) (es.filter (ts < ·.time)) rows' ∧
      ∀ (i : ℕ) (entry : RowEntry), (rowsAfter (madeBy ts es) rows)[i]? = some entry →
        entry.commitTsMs ≤ ts := by
  have hchain := h.chain
  rw [← @madeBy_append _ ts h.sorted] at hchain
  obtain ⟨mid, hbefore, hafter⟩ := hchain.split
  have hmid := hbefore.rowsAfter
  rw [← hmid]
  refine ⟨hafter, hbefore.stamps (fun e he => ?_) h.stamps⟩
  simpa using (List.mem_filter.mp he).2

/-- A row that was live then and has not been touched since is visible as it was. -/
theorem AsOfRun.unchanged (h : AsOfRun ts rows es rows') (hlive : LiveAt ts es rows i)
    (hes : ∀ e ∈ es, ts < e.time → e.idx ≠ i) : ∃ entry,
      (rowsAfter (madeBy ts es) rows)[i]? = some entry ∧ rows'[i]? = some entry ∧
        rowVisibleAt (some ts) entry = true := by
  obtain ⟨hchain, hstamps⟩ := h.cut
  obtain ⟨entry, hentry, hdel⟩ := hlive
  refine ⟨entry, hentry, ?_, ?_⟩
  · rw [hchain.untouched fun e he => ?_, hentry]
    obtain ⟨hmem, hlate⟩ := List.mem_filter.mp he
    exact hes e hmem (by simpa using hlate)
  · rw [visible_iff, hdel]
    simpa using hstamps i entry hentry

end Chain

end SkeinDB.Queries
