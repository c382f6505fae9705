import SkeinDB.Tables.Maintenance

/-!
# What statements do to rows

`skeindb/src/engine.rs`: a statement stores new rows behind the others, and changes, deletes and
revives rows in their places. Every such edit has the time at which it was made and the columns
that it gives a value.
-/
namespace SkeinDB.Tables
open SkeinDB.Transition

/-- How a row comes to be stored. `merge_apply` and `vector_insert` with `upsert` also take rows
that were deleted: the first fills them in from scratch, the second adds to what they had. -/
inductive EditKind
  | insert
  | update
  | delete
  | merge
  | revive
  | embed
  | embedDeleted
  deriving DecidableEq

structure RowEdit where
  kind : EditKind
  time : ℕ
  idx : ℕ
  entry : RowEntry
  writes : Set String

def RowEdit.apply (e : RowEdit) (rows : List RowEntry) : List RowEntry :=
  match e.kind with
  | .insert => rows ++ [e.entry]
  | _ => rows.set e.idx e.entry

/-- A value in a column that the edit does not write was there before. -/
def RowEdit.Keeps (e : RowEdit) (old : RowEntry) : Prop :=
  ∀ c v, e.entry.row c = some v → c ∈ e.writes ∨ old.row c = some v

/-- The columns that the row has are written by the edit. -/
def RowEdit.WritesAll (e : RowEdit) : Prop := ∀ c, (e.entry.row c).isSome → c ∈ e.writes

/-- What the edit makes of the row in its place. A merge leaves the time of the row alone. -/
def RowEdit.Changes (e : RowEdit) (old : RowEntry) : Prop :=
  match e.kind with
  | .insert => False
  | .update | .embed => old.deleted = false ∧ e.entry.deleted = false ∧
      e.entry.commitTsMs = e.time ∧ e.Keeps old
  | .delete => old.deleted = false ∧ e.entry.deleted = true ∧ e.entry.commitTsMs = e.time ∧
      e.entry.row = old.row
  | .merge => old.deleted = false ∧ e.entry.deleted = false ∧
      e.entry.commitTsMs = old.commitTsMs ∧ e.Keeps old
  | .revive => old.deleted = true ∧ e.entry.deleted = false ∧
      e.entry.commitTsMs = old.commitTsMs ∧ e.WritesAll
  | .embedDeleted => old.deleted = true ∧ e.entry.deleted = false ∧
      e.entry.commitTsMs = e.time ∧ e.Keeps old

def RowEdit.Valid (e : RowEdit) (rows : List RowEntry) : Prop :=
  if e.kind = .insert then
    e.idx = rows.length ∧ e.entry.deleted = false ∧ e.entry.commitTsMs = e.time ∧ e.WritesAll
  else ∃ old, rows[e.idx]? = some old ∧ e.Changes old

/-- The edits lead from the first rows to the last, each at a later reading of the clock. -/
inductive Edited (now : ℕ → ℕ) :
    ℕ → List RowEntry → List RowEdit → List RowEntry → ℕ → Prop
  | nil {lo hi rows} (h : lo ≤ hi) : Edited now lo rows [] rows hi
  | cons {lo n hi rows rows' e es} (hn : lo ≤ n) (htime : e.time = now n) (hvalid : e.Valid rows)
      (rest : Edited now (n + 1) (e.apply rows) es rows' hi) : Edited now lo rows (e :: es) rows' hi

section Edited
variable {now : ℕ → ℕ} {lo mid hi : ℕ} {rows rows' rows'' : List RowEntry} {es fs : List RowEdit}

theorem Edited.weaken (h : Edited now mid rows es rows' hi) (hlo : lo ≤ mid) :
    Edited now lo rows es rows' hi := by
  cases h with
  | nil h => exact .nil (hlo.trans h)
  | cons hn htime hvalid rest => exact .cons (hlo.trans hn) htime hvalid rest

theorem Edited.trans (h : Edited now lo rows es rows' mid) (h' : Edited now mid rows' fs rows'' hi) :
    Edited now lo rows (es ++ fs) rows'' hi := by
  induction h with
  | nil h => exact h'.weaken h
  | cons hn htime hvalid _ ih => exact .cons hn htime hvalid (ih h')

/-- Under a clock that does not go back, the edits come in the order of their times. -/
theorem Edited.times (h : Edited now lo rows es rows' hi) (hnow : Monotone now) :
    (es.map RowEdit.time).Pairwise (· ≤ ·) ∧ ∀ e ∈ es, now lo ≤ e.time ∧ ∃ n, e.time = now n := by
  induction h with
  | nil _ => exact ⟨.nil, fun _ he => absurd he List.not_mem_nil⟩
  | @cons lo n hi rows rows' e es hn htime _ _ ih =>
    obtain ⟨hsorted, hlow⟩ := ih
    refine ⟨List.pairwise_cons.mpr ⟨fun time htime' => ?_, hsorted⟩, fun f hf => ?_⟩
    · obtain ⟨f, hf, rfl⟩ := List.mem_map.mp htime'
      rw [htime]
      exact (hnow (Nat.le_succ n)).trans (hlow f hf).1
    · rcases List.mem_cons.mp hf with rfl | hf
      · exact ⟨htime ▸ hnow hn, n, htime⟩
      · exact ⟨(hnow (hn.trans (Nat.le_succ n))).trans (hlow f hf).1, (hlow f hf).2⟩

end Edited

/-- The definition of the table has not changed, nor where its rows are. -/
structure SameDefinition (t t' : Table) : Prop where
  columns : t'.schema.columns = t.schema.columns
  primaryKey : t'.schema.primaryKey = t.schema.primaryKey
  defaults : t'.schema.compatDefaults = t.schema.compatDefaults
  indexes : t'.schema.compatIndexes = t.schema.compatIndexes
  residency : t'.data.residency = t.data.residency

theorem SameDefinition.refl (t : Table) : SameDefinition t t := ⟨rfl, rfl, rfl, rfl, rfl⟩

theorem SameDefinition.trans {t t' t'' : Table} (h : SameDefinition t t')
    (h' : SameDefinition t' t'') : SameDefinition t t'' where
  columns := h'.columns.trans h.columns
  primaryKey := h'.primaryKey.trans h.primaryKey
  defaults := h'.defaults.trans h.defaults
  indexes := h'.indexes.trans h.indexes
  residency := h'.residency.trans h.residency

/-- Edits of a kind that lead from one table to another. -/
def Table.EditsTo (now : ℕ → ℕ) (P : RowEdit → Prop) (lo : ℕ) (t t' : Table) (hi : ℕ) : Prop :=
  SameDefinition t t' ∧
    ∃ es, Edited now lo t.data.rows es t'.data.rows hi ∧ ∀ e ∈ es, P e

section EditsTo
variable {now : ℕ → ℕ} {P : RowEdit → Prop} {lo mid hi : ℕ} {t t' t'' : Table}

theorem Table.EditsTo.trans (h : t.EditsTo now P lo t' mid) (h' : t'.EditsTo now P mid t'' hi) :
    t.EditsTo now P lo t'' hi := by
  obtain ⟨hsame, es, hes, hP⟩ := h
  obtain ⟨hsame', fs, hfs, hP'⟩ := h'
  refine ⟨hsame.trans hsame', es ++ fs, hes.trans hfs, fun e he => ?_⟩
  rcases List.mem_append.mp he with he | he
  · exact hP e he
  · exact hP' e he

/-- The rows have not changed. -/
theorem editsTo_of_same (hsame : SameDefinition t t') (hrows : t'.data.rows = t.data.rows)
    (h : lo ≤ hi) : t.EditsTo now P lo t' hi :=
  ⟨hsame, [], hrows ▸ .nil h, fun _ he => absurd he List.not_mem_nil⟩

theorem Table.SameRows.sameDefinition (h : t.SameRows t') : SameDefinition t t' :=
  ⟨by rw [h.schema], by rw [h.schema], by rw [h.schema], by rw [h.schema], h.residency⟩

theorem editsTo_of_sameRows (h : t.SameRows t') (hle : lo ≤ hi) : t.EditsTo now P lo t' hi :=
  editsTo_of_same h.sameDefinition h.rows hle

theorem editsTo_of_edit (hsame : SameDefinition t t') {e : RowEdit} (hP : P e)
    (htime : e.time = now lo) (hvalid : e.Valid t.data.rows)
    (hrows : t'.data.rows = e.apply t.data.rows) : t.EditsTo now P lo t' (lo + 1) :=
  ⟨hsame, [e], .cons le_rfl htime hvalid (hrows ▸ .nil le_rfl),
    fun _ he => List.mem_singleton.mp he ▸ hP⟩

/-- A statement leaves a table that edits lead to, whether it ends or is refused. -/
def EditsResult {α : Type} (now : ℕ → ℕ) (P : RowEdit → Prop) (lo : ℕ) (count : α → ℕ) (t : Table) :
    EStateM.Result String Table α → Prop
  | .ok a t' => t.EditsTo now P lo t' (count a)
  | .error _ t' => ∃ hi, t.EditsTo now P lo t' hi

theorem EditsResult.bind {α β : Type} {m : EStateM String Table α} {f : α → EStateM String Table β}
    {count : α → ℕ} {count' : β → ℕ} (h : EditsResult now P lo count t (m t))
    (hf : ∀ a t', m t = .ok a t' → EditsResult now P (count a) count' t' (f a t')) :
    EditsResult now P lo count' t ((m >>= f) t) := by
  rcases hm : m t with ⟨a, t'⟩ | ⟨e, t'⟩ <;> rw [hm] at h
  · rw [bind_of_ok hm]
    have hnext := hf a t' hm
    rcases hfa : f a t' with ⟨b, t''⟩ | ⟨e, t''⟩ <;> rw [hfa] at hnext
    · exact h.trans hnext
    · obtain ⟨hi, hnext⟩ := hnext
      exact ⟨hi, h.trans hnext⟩
  · rw [bind_of_error hm]
    exact h

theorem EditsResult.foldlM {α β : Type} {f : β → α → EStateM String Table β} {count : β → ℕ}
    (h : ∀ b a t, EditsResult now P (count b) count t (f b a t)) (items : List α) (b : β) (t : Table) :
    EditsResult now P (count b) count t (items.foldlM f b t) := by
  induction items generalizing b t with
  | nil => exact editsTo_of_same (.refl t) rfl le_rfl
  | cons a items ih =>
    rw [List.foldlM_cons]
    exact (h b a t).bind fun b' t' _ => ih b' t'

theorem EditsResult.final {α : Type} {count : α → ℕ} {result : EStateM.Result String Table α}
    (h : EditsResult now P lo count t result) :
    ∃ hi, t.EditsTo now P lo (Transition.final result) hi := by
  rcases result with ⟨a, t'⟩ | ⟨e, t'⟩
  · exact ⟨_, h⟩
  · exact h

theorem Table.EditsTo.weaken (h : t.EditsTo now P mid t' hi) (hle : lo ≤ mid) :
    t.EditsTo now P lo t' hi := by
  obtain ⟨hsame, es, hes, hP⟩ := h
  exact ⟨hsame, es, hes.weaken hle, hP⟩

/-- Rows that are visited in order are edited in order. -/
theorem scan_edits {α : Type} {visit : ℕ → EStateM String Table (Option α)}
    (h : ∀ idx t, EditsResult now P idx (fun _ => idx + 1) t (visit idx t)) (limit : Option ℕ)
    (idxs : List ℕ) (hsorted : idxs.Pairwise (· < ·)) (hlo : ∀ idx ∈ idxs, lo ≤ idx)
    (done : List α) (t : Table) :
    ∃ hi, t.EditsTo now P lo (Transition.final (scan visit limit idxs done t)) hi := by
  induction idxs generalizing lo done t with
  | nil => exact ⟨lo, editsTo_of_same (.refl t) rfl le_rfl⟩
  | cons idx idxs ih =>
    obtain ⟨hafter, hsorted⟩ := List.pairwise_cons.mp hsorted
    have hvisit := h idx t
    have hfirst := hlo idx List.mem_cons_self
    unfold scan
    rcases hrun : visit idx t with ⟨found, t'⟩ | ⟨e, t'⟩ <;> rw [hrun] at hvisit
    · rw [bind_of_ok hrun]
      have hedits : t.EditsTo now P lo t' (idx + 1) := Table.EditsTo.weaken hvisit hfirst
      have hrest := fun done => @ih (idx + 1) hsorted hafter done t'
      rcases found with _ | a
      · obtain ⟨hi, hrest⟩ := hrest done
        exact ⟨hi, hedits.trans hrest⟩
      · dsimp only
        split
        · exact ⟨_, hedits⟩
        · obtain ⟨hi, hrest⟩ := hrest (done ++ [a])
          exact ⟨hi, hedits.trans hrest⟩
    · rw [bind_of_error hrun]
      obtain ⟨hi, hedits⟩ := hvisit
      exact ⟨hi, Table.EditsTo.weaken hedits hfirst⟩

theorem EditsResult.modify {f : Table → Table} (hsame : SameDefinition t (f t))
    (hrows : (f t).data.rows = t.data.rows) :
    EditsResult now P lo (fun _ => lo) t ((MonadState.modifyGet fun t => ((), f t) :
      EStateM String Table Unit) t) :=
  editsTo_of_same hsame hrows le_rfl

end EditsTo

end SkeinDB.Tables
