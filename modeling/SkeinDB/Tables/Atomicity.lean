import SkeinDB.Tables.Borrow
import SkeinDB.Tables.Statements

/-!
# What a refused statement leaves behind

A statement checks and changes its rows one by one, and an error returns with the rows that went
before it changed. What is left as it was is exactly what a refusal at the first row leaves, when
nothing was brought up to date or drawn from a counter before it.
-/
namespace SkeinDB.Tables
open SkeinDB.Transition

section Rows
variable {text : LitsText} {c : ℕ} {t t' : Table}

/-- A row in memory carries a commit time. With a time that the clock shows only now, such a row
was written now. -/
structure Marked (c : ℕ) (t : Table) : Prop where
  resident : t.data.residency = .resident
  stamped : ∃ entry ∈ t.data.rows, entry.commitTsMs = c

theorem Marked.sameRows (h : Marked c t) (hsame : t.SameRows t') : Marked c t' where
  resident := hsame.residency.trans h.resident
  stamped := hsame.rows ▸ h.stamped

theorem stable_marked : Stable text (Marked c) where
  rebuild _ h := h.sameRows Table.sameRows_rebuild

theorem marked_storeRow (hres : t.data.residency = .resident) (key : String) {entry : RowEntry}
    (h : entry.commitTsMs = c) : Marked c (t.storeRow text key entry) where
  resident := hres
  stamped := ⟨entry, List.mem_append_right _ (List.mem_singleton_self _), h⟩

theorem marked_set (hres : t.data.residency = .resident) {idx : ℕ} (hidx : idx < t.data.rows.length)
    {entry : RowEntry} (h : entry.commitTsMs = c) :
    Marked c { t with data := t.data.setRow idx entry } where
  resident := hres
  stamped := ⟨entry, List.mem_set hidx entry, h⟩

theorem rows_movePk (d : TableData) (old new : String) (idx : ℕ) :
    (d.movePk old new idx).rows = d.rows ∧ (d.movePk old new idx).residency = d.residency := by
  unfold TableData.movePk
  split <;> exact ⟨rfl, rfl⟩

theorem marked_rewriteRow (hres : t.data.residency = .resident) {idx : ℕ}
    (hidx : idx < t.data.rows.length) {old : RowObject} {entry : RowEntry} {oldKey newKey : String}
    (h : entry.commitTsMs = c) : Marked c (t.rewriteRow text idx old entry oldKey newKey) := by
  have hset : Marked c ({ t with data := t.data.setRow idx entry } : Table) := marked_set hres hidx h
  unfold Table.rewriteRow
  dsimp only
  split
  · exact ⟨hset.resident, hset.stamped⟩
  · refine ⟨(rows_movePk _ oldKey newKey idx).2.trans hset.resident, ?_⟩
    rw [(rows_movePk _ oldKey newKey idx).1]
    exact hset.stamped

theorem marked_removeRow (hres : t.data.residency = .resident) {idx : ℕ}
    (hidx : idx < t.data.rows.length) {old : RowObject} {entry : RowEntry}
    (h : entry.commitTsMs = c) : Marked c (t.removeRow text idx old entry) :=
  have hset : Marked c ({ t with data := t.data.setRow idx entry } : Table) := marked_set hres hidx h
  ⟨hset.resident, hset.stamped⟩

end Rows

section Insert
variable {st : Stamp} {key : TableKey} {returning : Option (List String)} {c : ℕ} {t : Table}

/-- The table as it is does not take the row. -/
def RefusesInsert (text : LitsText) (t : Table) (row : RowObject) : Prop :=
  notNullViolation t.schema (applyDefaultsAndAutoinc t.schema row 0).row ≠ none ∨
    ∃ e, checkInsert text t (applyDefaultsAndAutoinc t.schema row 0).row = .error e

theorem foldl_fillColumn_last (defaults : String → Option Lit) (columns : List ColumnSchema)
    {f g : Fill} (h : f.autoIncNext = g.autoIncNext ∧ f.row = g.row) :
    (columns.foldl (fillColumn defaults) f).autoIncNext =
        (columns.foldl (fillColumn defaults) g).autoIncNext ∧
      (columns.foldl (fillColumn defaults) f).row = (columns.foldl (fillColumn defaults) g).row := by
  induction columns generalizing f g with
  | nil => exact h
  | cons col columns ih =>
    refine ih ?_
    obtain ⟨fNext, fRow, fLast⟩ := f
    obtain ⟨gNext, gRow, gLast⟩ := g
    obtain ⟨rfl, rfl⟩ := h
    unfold fillColumn
    dsimp only
    split
    · exact ⟨rfl, rfl⟩
    · split
      · exact ⟨rfl, rfl⟩
      · rcases defaults col.name with _ | default <;> dsimp only
        · split <;> exact ⟨rfl, rfl⟩
        · exact ⟨rfl, rfl⟩

theorem Table.IndexesCurrent.withCounters (h : t.IndexesCurrent) (counters : String → Option ℕ) :
    (t.withCounters counters).IndexesCurrent :=
  h.congr rfl rfl rfl

theorem Table.IndexesCurrent.storeRow (h : t.IndexesCurrent) (text : LitsText) (pkKey : String)
    (entry : RowEntry) : (t.storeRow text pkKey entry).IndexesCurrent :=
  (h.congr (u := { t with data := t.data.pushRow pkKey entry }) rfl rfl rfl).addRow text _ _

/-- What the rows after the first that was stored keep. -/
def Stored (c : ℕ) (t : Table) : Prop := Marked c t ∧ t.IndexesCurrent

theorem Marked.withCounters (h : Marked c t) (counters : String → Option ℕ) :
    Marked c (t.withCounters counters) := ⟨h.resident, h.stamped⟩

theorem stored_storeRow {t : Table} (hres : t.data.residency = .resident) (h : t.IndexesCurrent)
    (text : LitsText) (pkKey : String) {entry : RowEntry} (hc : entry.commitTsMs = c) :
    Stored c (t.storeRow text pkKey entry) :=
  ⟨marked_storeRow hres pkKey hc, h.storeRow text pkKey entry⟩

/-- With current indexes a row is refused before it is stored, or stored. -/
theorem insertRow_cases (h : t.IndexesCurrent) (p : InsertProgress) (row : RowObject) :
    (RefusesInsert st.ext.text t row ∧ ∃ e, insertRow st key returning p row t =
      .error e (t.withCounters (applyDefaultsAndAutoinc t.schema row 0).autoIncNext)) ∨
    ¬RefusesInsert st.ext.text t row ∧ ∃ p' t', insertRow st key returning p row t = .ok p' t' ∧
      (t.data.residency = .resident → Stored (st.now p.walRecords.length) t') := by
  have hlast := foldl_fillColumn_last t.schema.compatDefaults t.schema.columns
    (f := ⟨t.schema.autoIncNext, row, p.lastInsertId⟩) (g := ⟨t.schema.autoIncNext, row, 0⟩) ⟨rfl, rfl⟩
  have hcounters : (applyDefaultsAndAutoinc t.schema row p.lastInsertId).autoIncNext =
      (applyDefaultsAndAutoinc t.schema row 0).autoIncNext := hlast.1
  have hrow : (applyDefaultsAndAutoinc t.schema row p.lastInsertId).row =
      (applyDefaultsAndAutoinc t.schema row 0).row := hlast.2
  unfold insertRow RefusesInsert
  rw [bind_of_ok (m := get) rfl]
  dsimp only
  rw [hcounters, hrow, bind_of_ok (m := set _) rfl]
  rcases hnull : notNullViolation t.schema (applyDefaultsAndAutoinc t.schema row 0).row with
    _ | column
  · dsimp only
    rw [bind_of_ok (m := modify _) rfl, bind_of_ok (m := get) rfl]
    rw [Table.rebuild_of_current
      (h.withCounters (applyDefaultsAndAutoinc t.schema row 0).autoIncNext)]
    rcases hcheck : checkInsert st.ext.text t (applyDefaultsAndAutoinc t.schema row 0).row with e | pk
    · have hcheck' : checkInsert st.ext.text
          (t.withCounters (applyDefaultsAndAutoinc t.schema row 0).autoIncNext)
          (applyDefaultsAndAutoinc t.schema row 0).row = .error e := hcheck
      refine .inl ⟨.inr ⟨e, rfl⟩, e, ?_⟩
      rw [hcheck']
      rfl
    · have hcheck' : checkInsert st.ext.text
          (t.withCounters (applyDefaultsAndAutoinc t.schema row 0).autoIncNext)
          (applyDefaultsAndAutoinc t.schema row 0).row = .ok pk := hcheck
      refine .inr ⟨by simp, _, _, by rw [hcheck']; rfl, fun hres => ?_⟩
      refine stored_storeRow ?_ (h.withCounters _) _ _ rfl
      exact hres
  · exact .inl ⟨.inl (by simp), _, rfl⟩

theorem preserves_insertRow (hnow : ∀ n, st.now n = c) (p : InsertProgress) (row : RowObject) :
    Preserves (Stored c) (insertRow st key returning p row) := by
  rintro t ⟨hmarked, hcurrent⟩
  rcases insertRow_cases hcurrent p row with ⟨-, e, h⟩ | ⟨-, p', t', h, hstored⟩ <;> rw [h]
  · exact ⟨hmarked.withCounters _, hcurrent.withCounters _⟩
  · have hstored := hstored hmarked.resident
    rwa [hnow] at hstored

theorem bump_current (h : t.IndexesCurrent) : (bump t).IndexesCurrent where
  registered index hmem := by
    rw [bump, Table.setSecondaryIndexesBuiltVersion, Table.mapIndexes, Option.isSome_map]
    exact h.registered index hmem
  built k index hk := by
    obtain ⟨index', -, rfl⟩ := Option.map_eq_some_iff.mp hk
    rfl

theorem Stored.bump (h : Stored c t) : Stored c (bump t) :=
  ⟨⟨h.1.resident, h.1.stamped⟩, bump_current h.2⟩

/-- An insertion of no rows raises the table version. Another one is refused at the first row, or
stores that row. -/
theorem insertRows_cases (hres : t.data.residency = .resident) (rows : List RowObject) :
    (rows = [] ∧ insertRows st key rows returning t =
      .ok ({}, false) (bump (t.rebuildSecondaryIndexesIfStale st.ext.text))) ∨
    ∃ row rest, rows = row :: rest ∧
      ((RefusesInsert st.ext.text (t.rebuildSecondaryIndexesIfStale st.ext.text) row ∧
        ∃ e, insertRows st key rows returning t = .error e
          ((t.rebuildSecondaryIndexesIfStale st.ext.text).withCounters
            (applyDefaultsAndAutoinc t.schema row 0).autoIncNext)) ∨
      (¬RefusesInsert st.ext.text (t.rebuildSecondaryIndexesIfStale st.ext.text) row ∧
        ∀ c, (∀ n, st.now n = c) → Marked c (final (insertRows st key rows returning t)))) := by
  have hcurrent := @Table.rebuild_current st.ext.text t
  have hsame := @Table.sameRows_rebuild st.ext.text t
  rcases rows with _ | ⟨row, rest⟩
  · exact .inl ⟨rfl, rfl⟩
  · refine .inr ⟨row, rest, rfl, ?_⟩
    unfold insertRows
    rw [bind_of_ok (m := modify _) rfl, List.foldlM_cons, bind_assoc]
    rcases @insertRow_cases st key returning _ hcurrent {} row with
      ⟨hrefuses, e, h⟩ | ⟨htakes, p', t', h, hstored⟩
    · rw [hsame.schema] at h
      exact .inl ⟨hrefuses, e, bind_of_error h⟩
    · refine .inr ⟨htakes, fun c hnow => ?_⟩
      rw [bind_of_ok h]
      have hstored := hstored (hsame.residency.trans hres)
      rw [hnow] at hstored
      refine (Preserves.bind (Preserves.foldlM (preserves_insertRow hnow) rest p') (fun p => ?_) _
        hstored).1
      refine Preserves.bind (preserves_modify fun t ht => ht.bump) fun _ => ?_
      exact Preserves.bind (fun t ht => ht) fun _ => preserves_pure _

end Insert

section Sweep
variable {st : Stamp} {key : TableKey} {c : ℕ} {t : Table} {f : Filter}
  {refuses : Table → ℕ → Prop} {visit : ℕ → EStateM String Table (Option (List WalRowRecord))}

/-- The row in a position is deleted, or the statement is not about it. -/
def Passed (f : Filter) (t : Table) (idx : ℕ) : Prop :=
  ∀ entry, t.data.rows[idx]? = some entry → entry.deleted = false →
    f.matches idx entry.row = .ok false

/-- The row in a position is one that an update takes up and refuses: the predicate cannot be
evaluated, or no new row for it passes every check. -/
def RefusesUpdate (ext : Externals) (u : Update) (t : Table) (idx : ℕ) : Prop :=
  ∃ entry, t.data.rows[idx]? = some entry ∧ entry.deleted = false ∧
    ((∃ e, u.matches idx entry.row = .error e) ∨ u.matches idx entry.row = .ok true ∧
      ∀ newRow oldKey, checkUpdate ext u t idx entry = .ok (newRow, oldKey) →
        t.mysqlCompatUniqueConflict ext.text newRow (some idx) ≠ none)

def RefusesDelete (f : Filter) (t : Table) (idx : ℕ) : Prop :=
  ∃ entry, t.data.rows[idx]? = some entry ∧ entry.deleted = false ∧
    ∃ e, f.matches idx entry.row = .error e

/-- How a statement visits a row: it passes it over, refuses it, or writes it. -/
structure Visits (f : Filter) (refuses : Table → ℕ → Prop) (st : Stamp)
    (visit : ℕ → EStateM String Table (Option (List WalRowRecord))) : Prop where
  pass : ∀ idx t t', visit idx t = .ok none t' → t' = t
  refuse : ∀ idx t, refuses t idx → ¬Passed f t idx
  cases : ∀ idx t, t.IndexesCurrent →
    (Passed f t idx ∧ visit idx t = .ok none t) ∨
    (refuses t idx ∧ ∃ e, visit idx t = .error e t) ∨
    ¬Passed f t idx ∧ ¬refuses t idx ∧ ∃ b t', visit idx t = .ok (some b) t' ∧
      (t.data.residency = .resident → Stored (st.now idx) t')

theorem Visits.preserves (hv : Visits f refuses st visit) (hnow : ∀ n, st.now n = c) (idx : ℕ) :
    Preserves (Stored c) (visit idx) := by
  rintro t ⟨hmarked, hcurrent⟩
  rcases hv.cases idx t hcurrent with ⟨-, h⟩ | ⟨-, e, h⟩ | ⟨-, -, b, t', h, hstored⟩ <;> rw [h]
  · exact ⟨hmarked, hcurrent⟩
  · exact ⟨hmarked, hcurrent⟩
  · have hstored := hstored hmarked.resident
    rwa [hnow] at hstored

theorem mem_of_range_eq {n a : ℕ} {before after : List ℕ} (h : List.range n = before ++ a :: after)
    {j : ℕ} (hj : j < a) : j ∈ before := by
  have ha : a ∈ List.range n := by rw [h]; simp
  have hmem : j ∈ before ++ a :: after := by
    rw [← h, List.mem_range]
    exact hj.trans (List.mem_range.mp ha)
  have hsorted := List.pairwise_lt_range (n := n)
  rw [h, List.pairwise_append, List.pairwise_cons] at hsorted
  rcases List.mem_append.mp hmem with hb | hb
  · exact hb
  · rcases List.mem_cons.mp hb with rfl | hb
    · omega
    · have := hsorted.2.1.1 j hb
      omega

/-- A sweep passes over every row, or it is refused at the first row that it does not pass over,
or it writes that row. -/
theorem sweepRows_cases (hv : Visits f refuses st visit) (hres : t.data.residency = .resident)
    (limit : Option ℕ) : let t₀ := t.rebuildSecondaryIndexesIfStale st.ext.text
    sweepRows st limit visit t = .ok [] t₀ ∨
    ∃ idx, (∀ j < idx, Passed f t₀ j) ∧
      ((refuses t₀ idx ∧ ∃ e, sweepRows st limit visit t = .error e t₀) ∨
      (¬Passed f t₀ idx ∧ ¬refuses t₀ idx ∧
        ∀ c, (∀ n, st.now n = c) → Marked c (final (sweepRows st limit visit t)))) := by
  intro t₀
  have hcurrent : t₀.IndexesCurrent := Table.rebuild_current t
  have hres₀ : t₀.data.residency = .resident := Table.sameRows_rebuild.residency.trans hres
  have hpassed : ∀ {j}, visit j t₀ = .ok none t₀ → Passed f t₀ j := by
    intro j hj
    rcases hv.cases j t₀ hcurrent with ⟨h, -⟩ | ⟨-, e, h⟩ | ⟨-, -, b, t', h, -⟩
    · exact h
    · rw [hj] at h
      cases h
    · rw [hj] at h
      cases h
  unfold sweepRows
  rw [bind_of_ok (m := modify _) rfl, bind_of_ok (m := get) rfl]
  rcases @scan_cases _ _ _ _ visit limit (List.range t₀.data.rows.length) [] t₀ hv.pass with
    ⟨-, hscan⟩ | ⟨before, idx, after, hrange, hbefore, h⟩
  · exact .inl (bind_of_ok hscan)
  · refine .inr ⟨idx, fun j hj => hpassed (hbefore j (mem_of_range_eq hrange hj)), ?_⟩
    rcases hv.cases idx t₀ hcurrent with ⟨-, hidx⟩ | ⟨hrefuses, e, hidx⟩ |
      ⟨hpass, hrefuses, b, t', hidx, hstored⟩
    · rcases h with ⟨e, s', herr, -⟩ | ⟨b, s₁, hok, -⟩
      · rw [hidx] at herr
        cases herr
      · rw [hidx] at hok
        cases hok
    · rcases h with ⟨e', s', herr, hscan⟩ | ⟨b, s₁, hok, -⟩
      · cases hidx.symm.trans herr
        exact .inl ⟨hrefuses, e, bind_of_error hscan⟩
      · rw [hidx] at hok
        cases hok
    · refine .inr ⟨hpass, hrefuses, fun c hnow => ?_⟩
      have hstored := hstored hres₀
      rw [hnow] at hstored
      have hscan : Stored c (final (scan visit limit (List.range t₀.data.rows.length) [] t₀)) := by
        rcases h with ⟨e, s', herr, -⟩ | ⟨b', s₁, hok, hscan | hscan⟩
        · rw [hidx] at herr
          cases herr
        · cases hidx.symm.trans hok
          rw [hscan]
          exact hstored
        · cases hidx.symm.trans hok
          rw [hscan]
          exact Preserves.scan (fun j _ => hv.preserves hnow j) t' hstored
      refine (final_bind_of hscan fun affected => ?_).1
      split
      · exact Preserves.bind (preserves_modify fun t ht => ht.bump) fun _ => preserves_pure _
      · exact preserves_pure _

theorem not_passed {idx : ℕ} {entry : RowEntry} (hentry : t.data.rows[idx]? = some entry)
    (hlive : entry.deleted = false) (h : f.matches idx entry.row ≠ .ok false) : ¬Passed f t idx :=
  fun hpassed => h (hpassed entry hentry hlive)

theorem passed_of_deleted {idx : ℕ} {entry : RowEntry} (hentry : t.data.rows[idx]? = some entry)
    (h : entry.deleted = false → f.matches idx entry.row = .ok false) : Passed f t idx := by
  intro entry' hentry' hlive
  cases hentry.symm.trans hentry'
  exact h hlive

theorem stored_removeRow (hres : t.data.residency = .resident) (h : t.IndexesCurrent)
    (text : LitsText) {idx : ℕ} (hidx : idx < t.data.rows.length) (old : RowObject)
    {entry : RowEntry} (hc : entry.commitTsMs = c) : Stored c (t.removeRow text idx old entry) :=
  ⟨marked_removeRow hres hidx hc, (h.removeRow text idx old).congr rfl rfl rfl⟩

theorem visits_deleteRow (st : Stamp) (key : TableKey) (f : Filter) :
    Visits f (RefusesDelete f) st (deleteRow st key f) where
  pass idx t t' h := by
    unfold deleteRow at h
    rw [bind_of_ok (m := get) rfl] at h
    rcases hrow : t.data.rows[idx]? with _ | entry <;> simp only [hrow] at h
    · cases h
      rfl
    · cases hdel : entry.deleted <;> simp only [hdel] at h
      · rcases hmatch : f.matches idx entry.row with e | (_ | _) <;> simp only [hmatch] at h
        · cases h
        · cases h
          rfl
        · cases h
      · cases h
        rfl
  refuse idx t h := by
    obtain ⟨entry, hentry, hlive, e, he⟩ := h
    exact not_passed hentry hlive (by rw [he]; simp)
  cases idx t hcurrent := by
    unfold deleteRow
    rw [bind_of_ok (m := get) rfl]
    rcases hrow : t.data.rows[idx]? with _ | entry
    · refine .inl ⟨fun entry hentry => ?_, rfl⟩
      rw [hrow] at hentry
      cases hentry
    · rcases hdel : entry.deleted with _ | _
      · rcases hmatch : f.matches idx entry.row with e | (_ | _)
        · refine .inr (.inl ⟨⟨entry, hrow, hdel, e, hmatch⟩, e, ?_⟩)
          simp only [hdel, hmatch]
          rfl
        · refine .inl ⟨passed_of_deleted hrow fun _ => hmatch, ?_⟩
          simp only [hdel, hmatch]
          rfl
        · refine .inr (.inr ⟨not_passed hrow hdel (by rw [hmatch]; simp), ?_, _,
            t.removeRow st.ext.text idx entry.row (st.entry t.schema idx entry.row true),
            by simp only [hdel, hmatch]; rfl, fun hres => ?_⟩)
          · rintro ⟨entry', hentry', -, e, he⟩
            cases hrow.symm.trans hentry'
            rw [hmatch] at he
            cases he
          · exact stored_removeRow hres hcurrent _ (List.getElem?_eq_some_iff.mp hrow).1 _ rfl
      · refine .inl ⟨passed_of_deleted hrow fun h => ?_, ?_⟩
        · rw [hdel] at h
          cases h
        · simp only [hdel]
          rfl

/-- A row that passes the first checks of an update has a key, its new image too, and no other
live row has the new key. -/
theorem checkUpdate_ok {ext : Externals} {u : Update} {idx : ℕ} {entry : RowEntry}
    {newRow : RowObject} {oldKey : String}
    (h : checkUpdate ext u t idx entry = .ok (newRow, oldKey)) :
    (∃ pk, extractPk t.schema entry.row = .ok pk ∧ oldKey = ext.text pk) ∧
      ∃ pk, extractPk t.schema newRow = .ok pk ∧
        t.primaryKeyConflict (ext.text pk) (some idx) = false := by
  unfold checkUpdate at h
  split at h
  · cases h
  · obtain ⟨row, -, h⟩ := Format.bind_eq_ok h
    split at h
    · cases h
    · obtain ⟨oldPk, hold, h⟩ := Format.bind_eq_ok h
      obtain ⟨newPk, hnew, h⟩ := Format.bind_eq_ok h
      split at h
      · cases h
      · rename_i hconflict
        cases h
        exact ⟨⟨oldPk, hold, rfl⟩, newPk, hnew, Bool.eq_false_iff.mpr hconflict⟩

theorem stored_rewriteRow (hres : t.data.residency = .resident) (h : t.IndexesCurrent)
    (text : LitsText) {idx : ℕ} (hidx : idx < t.data.rows.length) (old : RowObject)
    {entry : RowEntry} (oldKey newKey : String) (hc : entry.commitTsMs = c) :
    Stored c (t.rewriteRow text idx old entry oldKey newKey) := by
  refine ⟨marked_rewriteRow hres hidx hc, ?_⟩
  unfold Table.rewriteRow
  dsimp only
  have hset := (h.removeRow text idx old).congr (u := { t.secondaryIndexRemoveRow text idx old with
    data := (t.secondaryIndexRemoveRow text idx old).data.setRow idx entry }) rfl rfl rfl
  have hadd := hset.addRow text idx entry.row
  split
  · exact hadd
  · unfold TableData.movePk
    split
    · exact hadd.congr rfl rfl rfl
    · exact hadd

/-- The end of a visit to a row whose new image passes the first checks. -/
theorem updateRow_of_checked (hcurrent : t.IndexesCurrent) {u : Update} {idx : ℕ} {entry : RowEntry}
    (hrow : t.data.rows[idx]? = some entry) (hlive : entry.deleted = false)
    (hmatch : u.matches idx entry.row = .ok true) {newRow : RowObject} {oldKey : String}
    (hcheck : checkUpdate st.ext u t idx entry = .ok (newRow, oldKey)) :
    (t.mysqlCompatUniqueConflict st.ext.text newRow (some idx) ≠ none ∧
      ∃ e, updateRow st key u idx t = .error e t) ∨
    t.mysqlCompatUniqueConflict st.ext.text newRow (some idx) = none ∧
      ∃ newKey, updateRow st key u idx t =
        .ok (some (updateRecords st.ext.text key t.schema entry.row
            (st.entry t.schema idx newRow entry.deleted)))
          (t.rewriteRow st.ext.text idx entry.row (st.entry t.schema idx newRow entry.deleted) oldKey
            newKey) := by
  obtain ⟨-, newPk, hpk, -⟩ := checkUpdate_ok hcheck
  rcases hconflict : t.mysqlCompatUniqueConflict st.ext.text newRow (some idx) with _ | index
  on_goal 1 => refine .inr ⟨rfl, st.ext.text newPk, ?_⟩
  on_goal 2 => refine .inl ⟨by simp, "conflict: " ++ duplicateKeyMessage index, ?_⟩
  all_goals
    unfold updateRow
    rw [bind_of_ok (m := get) rfl]
    simp only [hrow, hlive, hmatch, hcheck]
    change ((modify (Table.rebuildSecondaryIndexesIfStale st.ext.text) >>= _) : EStateM _ _ _) t = _
    rw [bind_of_ok (m := modify _) rfl, Table.rebuild_of_current hcurrent,
      bind_of_ok (m := get) rfl]
    simp only [hconflict, hpk]
    rfl

theorem visits_updateRow (st : Stamp) (key : TableKey) (u : Update) :
    Visits u.toFilter (RefusesUpdate st.ext u) st (updateRow st key u) where
  pass idx t t' h := by
    unfold updateRow at h
    rw [bind_of_ok (m := get) rfl] at h
    rcases hrow : t.data.rows[idx]? with _ | entry <;> simp only [hrow] at h
    · cases h
      rfl
    · cases hdel : entry.deleted <;> simp only [hdel] at h
      · rcases hmatch : u.matches idx entry.row with e | (_ | _) <;> simp only [hmatch] at h
        · cases h
        · cases h
          rfl
        · rcases hcheck : checkUpdate st.ext u t idx entry with e | ⟨newRow, oldKey⟩ <;>
            simp only [hcheck] at h
          · cases h
          · change ((modify (Table.rebuildSecondaryIndexesIfStale st.ext.text) >>= _) :
              EStateM _ _ _) t = _ at h
            rw [bind_of_ok (m := modify _) rfl, bind_of_ok (m := get) rfl] at h
            set t₁ := t.rebuildSecondaryIndexesIfStale st.ext.text
            rcases hconflict : t₁.mysqlCompatUniqueConflict st.ext.text newRow (some idx) with
              _ | index <;> simp only [hconflict] at h
            · rcases hpk : extractPk t₁.schema newRow with e | pk <;> simp only [hpk] at h <;> cases h
            · cases h
      · cases h
        rfl
  refuse idx t h := by
    obtain ⟨entry, hentry, hlive, ⟨e, he⟩ | ⟨htrue, -⟩⟩ := h
    · exact not_passed hentry hlive (by rw [he]; simp)
    · exact not_passed hentry hlive (by rw [htrue]; simp)
  cases idx t hcurrent := by
    rcases hrow : t.data.rows[idx]? with _ | entry
    · refine .inl ⟨fun entry hentry => ?_, ?_⟩
      · rw [hrow] at hentry
        cases hentry
      · unfold updateRow
        rw [bind_of_ok (m := get) rfl, hrow]
        rfl
    · rcases hdel : entry.deleted with _ | _
      · rcases hmatch : u.matches idx entry.row with e | (_ | _)
        · refine .inr (.inl ⟨⟨entry, hrow, hdel, .inl ⟨e, hmatch⟩⟩, e, ?_⟩)
          unfold updateRow
          rw [bind_of_ok (m := get) rfl]
          simp only [hrow, hdel, hmatch]
          rfl
        · refine .inl ⟨passed_of_deleted hrow fun _ => hmatch, ?_⟩
          unfold updateRow
          rw [bind_of_ok (m := get) rfl]
          simp only [hrow, hdel, hmatch]
          rfl
        · have hpassed := not_passed hrow hdel (f := u.toFilter) (by rw [hmatch]; simp)
          rcases hcheck : checkUpdate st.ext u t idx entry with e | ⟨newRow, oldKey⟩
          · refine .inr (.inl ⟨⟨entry, hrow, hdel, .inr ⟨hmatch, ?_⟩⟩, e, ?_⟩)
            · intro newRow oldKey hok
              rw [hcheck] at hok
              cases hok
            · unfold updateRow
              rw [bind_of_ok (m := get) rfl]
              simp only [hrow, hdel, hmatch, hcheck]
              rfl
          · rcases updateRow_of_checked hcurrent hrow hdel hmatch hcheck with
              ⟨hconflict, herr⟩ | ⟨hconflict, newKey, hok⟩
            · refine .inr (.inl ⟨⟨entry, hrow, hdel, .inr ⟨hmatch, ?_⟩⟩, herr⟩)
              intro newRow' oldKey' hcheck'
              cases hcheck.symm.trans hcheck'
              exact hconflict
            · refine .inr (.inr ⟨hpassed, ?_, _, _, hok, fun hres => ?_⟩)
              · rintro ⟨entry', hentry', -, ⟨e, he⟩ | ⟨-, hall⟩⟩
                · cases hrow.symm.trans hentry'
                  rw [hmatch] at he
                  cases he
                · cases hrow.symm.trans hentry'
                  exact hall newRow oldKey hcheck hconflict
              · exact stored_rewriteRow hres hcurrent _ (List.getElem?_eq_some_iff.mp hrow).1 _ _ _ rfl
      · refine .inl ⟨passed_of_deleted hrow fun h => ?_, ?_⟩
        · rw [hdel] at h
          cases h
        · unfold updateRow
          rw [bind_of_ok (m := get) rfl]
          simp only [hrow, hdel]
          rfl

end Sweep

section Vector
variable {st : Stamp} {params : VectorInsertParams} {c : ℕ} {t : Table}

/-- The table as it is does not take the row of an embedding. -/
def RefusesVector (text : LitsText) (params : VectorInsertParams) (t : Table)
    (row : VectorInsertRow) : Prop :=
  row.pk.length ≠ t.schema.primaryKey.length ∨ (∃ e, embeddingRef row.embedding = .error e) ∨
    (t.data.pkIndex (text row.pk) ≠ none ∧ params.upsert = false) ∨
    (t.data.pkIndex (text row.pk) = none ∧ ∃ e, newVectorRow t.schema params.column row = .error e)

/-- Once the embedding is known to be one, its id can be computed. -/
theorem embeddingIdForLit_ok {ext : Externals} {lit : Lit} {ref : ℕ × List Float32 × Option String}
    (h : embeddingRef lit = .ok ref) : ∃ id, embeddingIdForLit ext lit = .ok id := by
  unfold embeddingRef at h
  split at h
  · rename_i dims v model
    split at h
    · cases h
    · rename_i hdims
      split at h
      · cases h
      · rename_i hlen
        refine ⟨ext.embeddingId dims v model, ?_⟩
        simp only [embeddingIdForLit, embeddingRef, if_neg hdims, if_neg hlen]
        change (if (decide (dims = 0) || decide (v.length ≠ dims)) = true then _ else _) = _
        rw [if_neg (by simp [hdims, not_not.mp hlen])]
        rfl
  · cases h

theorem writeVector_cases (p : VectorProgress) (row : VectorInsertRow) :
    (((t.data.pkIndex (st.ext.text row.pk) ≠ none ∧ params.upsert = false) ∨
        (t.data.pkIndex (st.ext.text row.pk) = none ∧
          ∃ e, newVectorRow t.schema params.column row = .error e)) ∧
      ∃ e, writeVector st params p row t = .error e) ∨
    (¬((t.data.pkIndex (st.ext.text row.pk) ≠ none ∧ params.upsert = false) ∨
        (t.data.pkIndex (st.ext.text row.pk) = none ∧
          ∃ e, newVectorRow t.schema params.column row = .error e)) ∧
      ∃ p' t', writeVector st params p row t = .ok (p', t') ∧
        (t.data.residency = .resident → Marked (st.now (p.inserted + p.updated)) t')) := by
  unfold writeVector
  rcases hpk : t.data.pkIndex (st.ext.text row.pk) with _ | idx
  · rcases hnew : newVectorRow t.schema params.column row with e | new
    · exact .inl ⟨.inr ⟨rfl, e, rfl⟩, e, rfl⟩
    · refine .inr ⟨by simp, _, _, rfl, fun hres => ⟨hres, ?_⟩⟩
      exact ⟨_, List.mem_append_right _ (List.mem_singleton_self _), rfl⟩
  · have hidx := t.data.pk_lt _ _ hpk
    obtain ⟨old, hold⟩ : ∃ old, t.data.rows[idx]? = some old := ⟨_, List.getElem?_eq_getElem hidx⟩
    simp only [Option.bind_some, hold, Option.map_some]
    cases params.upsert
    · exact .inl ⟨.inl ⟨by simp, rfl⟩, "conflict", rfl⟩
    · exact .inr ⟨by simp, _, _, rfl, fun hres => marked_set hres hidx rfl⟩

theorem vectorRow_cases (p : VectorProgress) (row : VectorInsertRow) :
    (RefusesVector st.ext.text params t row ∧ ∃ e, vectorRow st params p row t = .error e t) ∨
    (¬RefusesVector st.ext.text params t row ∧ ∃ p' t', vectorRow st params p row t = .ok p' t' ∧
      (t.data.residency = .resident → Marked (st.now (p.inserted + p.updated)) t')) := by
  unfold vectorRow RefusesVector
  rw [bind_of_ok (m := get) rfl]
  by_cases hlen : row.pk.length = t.schema.primaryKey.length
  · rw [if_neg (not_not_intro hlen)]
    rcases href : embeddingRef row.embedding with e | ref
    · exact .inl ⟨.inr (.inl ⟨e, rfl⟩), e, rfl⟩
    · rcases @writeVector_cases st params t p row with
        ⟨hrefuses, e, hwrite⟩ | ⟨htakes, p', t', hwrite, hmarked⟩
      · exact .inl ⟨.inr (.inr hrefuses), e, by simp only [hwrite]; rfl⟩
      · obtain ⟨id, hid⟩ := @embeddingIdForLit_ok st.ext _ _ href
        refine .inr ⟨?_, { p' with embeddingIds := p'.embeddingIds ++ [id] }, t', ?_, hmarked⟩
        · rintro (h | ⟨e, h⟩ | h)
          · exact h hlen
          · cases h
          · exact htakes h
        · simp only [hwrite, hid]
          rfl
  · exact .inl ⟨.inl hlen, _, by rw [if_pos hlen]; rfl⟩

theorem preserves_vectorRow (hnow : ∀ n, st.now n = c) (p : VectorProgress)
    (row : VectorInsertRow) : Preserves (Marked c) (vectorRow st params p row) := by
  intro t hmarked
  rcases @vectorRow_cases st params t p row with
    ⟨-, e, h⟩ | ⟨-, p', t', h, hwritten⟩ <;> rw [h]
  · exact hmarked
  · have hwritten := hwritten hmarked.resident
    rwa [hnow] at hwritten

/-- Rows with embeddings are refused as a whole for the table, or at the first row, or the first
row is written. -/
theorem vectorRows_cases (hres : t.data.residency = .resident) (hrows : params.rows ≠ []) :
    ((∃ e, checkVectorTable t.schema params.column = .error e) ∧
      ∃ e, vectorRows st params t = .error e t) ∨
    ∃ row rest, params.rows = row :: rest ∧
      ((RefusesVector st.ext.text params t row ∧ ∃ e, vectorRows st params t = .error e t) ∨
      ((∀ e, checkVectorTable t.schema params.column ≠ .error e) ∧
        ¬RefusesVector st.ext.text params t row ∧
        ∀ c, (∀ n, st.now n = c) → Marked c (final (vectorRows st params t)))) := by
  unfold vectorRows
  rw [bind_of_ok (m := get) rfl]
  rcases hcheck : checkVectorTable t.schema params.column with e | ⟨⟩
  · exact .inl ⟨⟨e, rfl⟩, e, rfl⟩
  · obtain ⟨row, rest, hparams⟩ := List.exists_cons_of_ne_nil hrows
    refine .inr ⟨row, rest, hparams, ?_⟩
    dsimp only
    rw [hparams, List.foldlM_cons, bind_assoc]
    rcases @vectorRow_cases st params t {} row with
      ⟨hrefuses, e, h⟩ | ⟨htakes, p', t', h, hmarked⟩
    · exact .inl ⟨hrefuses, e, bind_of_error h⟩
    · refine .inr ⟨by simp, htakes, fun c hnow => ?_⟩
      have hmarked := hmarked hres
      rw [hnow] at hmarked
      rw [bind_of_ok h]
      refine final_bind_of (Preserves.foldlM (preserves_vectorRow hnow) rest p' t' hmarked) fun p => ?_
      split
      · refine Preserves.bind ?_ fun _ => preserves_pure _
        exact preserves_modify fun t ht => ⟨ht.resident, ht.stamped⟩
      · exact preserves_pure _

end Vector

inductive Statement
  | insert (rows : List RowObject) (returning : Option (List String))
  | update (u : Update)
  | delete (f : Filter)
  | vectorInsert (params : VectorInsertParams)

def Statement.run (ext : Externals) (io : Io) (now : ℕ → ℕ) (key : TableKey) :
    Statement → EStateM String Engine Unit
  | .insert rows returning => (fun _ => ()) <$> dataInsert ext io now key rows returning
  | .update u => (fun _ => ()) <$> dataUpdateExprs ext io now key u
  | .delete f => (fun _ => ()) <$> dataDelete ext io now key f
  | .vectorInsert params => (fun _ => ()) <$> Tables.vectorInsert ext io now key params

/-- The statement is refused for the table as it is, before anything was changed: at the first
row that it inserts, changes or deletes, with every index there and current and no value drawn
from a counter. Apart from that only an insertion of no rows leaves the table as it is, when its
version cannot be raised. -/
def Statement.RefusedFirst (ext : Externals) (t : Table) : Statement → Prop
  | .insert rows _ => t.IndexesCurrent ∧
      ((∃ row rest, rows = row :: rest ∧ RefusesInsert ext.text t row ∧
          (applyDefaultsAndAutoinc t.schema row 0).autoIncNext = t.schema.autoIncNext) ∨
        rows = [] ∧ saturatingSucc t.schema.tableVersion = t.schema.tableVersion)
  | .update u => t.IndexesCurrent ∧
      ∃ idx, (∀ j < idx, Passed u.toFilter t j) ∧ RefusesUpdate ext u t idx
  | .delete f => t.IndexesCurrent ∧ ∃ idx, (∀ j < idx, Passed f t j) ∧ RefusesDelete f t idx
  | .vectorInsert params => (∃ e, checkVectorTable t.schema params.column = .error e) ∨
      ∃ row rest, params.rows = row :: rest ∧ RefusesVector ext.text params t row

section Statements
variable {ext : Externals} {text : LitsText} {io : Io} {now : ℕ → ℕ} {key : TableKey}
  {s s' : Engine} {t t' : Table} {c : ℕ} {e : String} {α β : Type} {m : EStateM String Table α}
  {k : α → EStateM String Engine β} {M : Table → Prop}

theorem exists_fresh (rows : List RowEntry) : ∃ c, ∀ entry ∈ rows, entry.commitTsMs ≠ c := by
  obtain ⟨c, hc⟩ := Infinite.exists_notMem_finset (rows.map RowEntry.commitTsMs).toFinset
  refine ⟨c, fun entry hentry hts => hc ?_⟩
  rw [List.mem_toFinset, ← hts]
  exact List.mem_map_of_mem hentry

/-- A row written now shows. -/
theorem observed_ne_of_marked (ht : s.tableOf text key = some t)
    (hc : ∀ entry ∈ t.data.rows, entry.commitTsMs ≠ c) (h : s'.Holding text key (Marked c)) :
    s'.observed text key ≠ s.observed text key := by
  obtain ⟨t', ht', hmarked⟩ := h
  intro heq
  rw [observed_eq ht, observed_eq ht'] at heq
  obtain ⟨entry, hentry, hts⟩ := hmarked.stamped
  have hrows : t'.data.rows = t.data.rows :=
    congrArg Prod.fst (Option.some.inj (congrArg Observed.content heq))
  exact hc entry (hrows ▸ hentry) hts

/-- What a statement makes of its table it leaves there, whatever is written afterwards. -/
theorem holding_of_final (ht : s.tableOf text key = some t)
    (hk : ∀ a, Preserves (Engine.Holding text key M) (k a)) (hM : M (final (m t)))
    (hres : (final (m t)).data.residency = .resident) :
    (final ((Engine.onTable text key m >>= k) s)).Holding text key M := by
  obtain ⟨s₁, hs₁, -, hrun⟩ := @onTable_of_some _ _ _ _ α ht
  refine final_bind_of ?_ hk
  rw [hrun m, zoom]
  rcases hm : m t with ⟨a, t'⟩ | ⟨e, t'⟩ <;> rw [hm] at hM hres
  · exact ⟨t', tableOf_putTable_self hs₁ hres, hM⟩
  · exact ⟨t', tableOf_putTable_self hs₁ hres, hM⟩

/-- A statement that is refused while it has its table borrowed writes nothing else. -/
theorem observed_of_refused (ht : s.tableOf text key = some t) (hm : m t = .error e t')
    (hres : t'.data.residency = .resident) :
    ∃ s₁, (Engine.onTable text key m >>= k) s = .error e s₁ ∧ s₁.observed text key =
      ⟨some (t'.schema.autoIncNext, t'.schema.tableVersion), some t'.data.content, s.disk.wals⟩ := by
  obtain ⟨s₁, hs₁, hdisk, hrun⟩ := @onTable_of_some _ _ _ _ α ht
  refine ⟨Engine.putTable key t' s₁, bind_of_error (by rw [hrun m, zoom, hm]), ?_⟩
  rw [observed_eq (tableOf_putTable_self hs₁ hres)]
  exact congrArg _ (congrArg Disk.wals hdisk)

theorem map_error {m : EStateM String Engine α} {g : α → β} :
    (g <$> m) s = .error e s' ↔ m s = .error e s' := by
  rw [map_eq_pure_bind, bind_error]
  constructor
  · rintro (h | ⟨a, s₁, -, h⟩)
    · exact h
    · cases h
  · exact .inl

theorem preserves_commitInsert {key' : TableKey} (hM : Stable ext.text M)
    (done : InsertProgress × Bool) :
    Preserves (Engine.Holding ext.text key M) (commitInsert ext io key' done) := by
  have hrest : Preserves (Engine.Holding ext.text key M) (do
      Engine.walLogRows io key'.db done.1.walRecords
      Engine.persistTableDeferred ext.text io key'
      return ({
        affected := done.1.walRecords.length
        lastInsertId := done.1.lastInsertId
        returning := if done.1.returning = [] then none else some done.1.returning } : WriteResult)) :=
    Preserves.bind preserves_walLogRows fun _ =>
      Preserves.bind (preserves_persistDeferred hM) fun _ => preserves_pure _
  unfold commitInsert
  dsimp only
  split
  · exact Preserves.bind preserves_persistCatalog fun _ => hrest
  · exact hrest

theorem preserves_commitSweep {key' : TableKey} (hM : Stable ext.text M)
    (affected : List (List WalRowRecord)) :
    Preserves (Engine.Holding ext.text key M) (commitSweep ext io key' affected) := by
  unfold commitSweep
  split
  · exact Preserves.bind preserves_persistCatalog fun _ => Preserves.bind preserves_walLogRows
      fun _ => Preserves.bind (preserves_persistDeferred hM) fun _ => preserves_pure _
  · exact preserves_pure _

theorem preserves_commitVector {key' : TableKey} (hM : Stable ext.text M)
    (progress : VectorProgress) :
    Preserves (Engine.Holding ext.text key M) (commitVector ext io key' progress) := by
  unfold commitVector
  split
  · exact Preserves.bind preserves_persistCatalog fun _ =>
      Preserves.bind (preserves_persistTable hM) fun _ => preserves_pure _
  · exact preserves_pure _

theorem bump_eq_self (h : t.IndexesCurrent)
    (hversion : saturatingSucc t.schema.tableVersion = t.schema.tableVersion) : bump t = t := by
  have hschema : bumpTableVersion t.schema = t.schema := by rw [bumpTableVersion, hversion]
  unfold bump Table.setSecondaryIndexesBuiltVersion
  simp only [hschema]
  refine Table.mapIndexes_eq_self fun k index hk => ?_
  rw [← h.built k index hk]

/-- The indexes of a table are current when, with the same rows, they come out as they were. -/
theorem current_of_observed (ht : s.tableOf text key = some t) (h : t'.IndexesCurrent)
    (hcompat : t'.schema.compatIndexes = t.schema.compatIndexes) {w : String → List WalFrame}
    (heq : (⟨some (t'.schema.autoIncNext, t'.schema.tableVersion), some t'.data.content, w⟩ :
      Observed) = s.observed text key) :
    t.IndexesCurrent ∧ t'.schema.autoIncNext = t.schema.autoIncNext ∧
      t'.schema.tableVersion = t.schema.tableVersion := by
  rw [observed_eq ht] at heq
  have hcounters := Option.some.inj (congrArg Observed.counters heq)
  have hcontent := Option.some.inj (congrArg Observed.content heq)
  refine ⟨h.congr hcompat.symm ?_ ?_, congrArg Prod.fst hcounters, congrArg Prod.snd hcounters⟩
  · exact (congrArg Prod.snd hcounters).symm
  · exact (congrArg (fun content => content.2.2) hcontent).symm

/-- A statement leaves the table as it was whenever it returns an error. -/
def LeavesAlone (text : LitsText) (key : TableKey) (s : Engine)
    (run : (ℕ → ℕ) → EStateM String Engine α) : Prop :=
  ∀ now e s', run now s = .error e s' → s'.observed text key = s.observed text key

/-- When nothing was inserted, only the write of the snapshot can be refused. -/
theorem insertNothing_error {key' : TableKey} {m : EStateM String Table (InsertProgress × Bool)}
    (ht : s.tableOf ext.text key = some t) (hm : m t = .ok ({}, false) t')
    (hres : t'.data.residency = .resident) (hM : Stable ext.text M) (hMt : M t')
    (herr : (Engine.onTable ext.text key m >>= commitInsert ext io key') s = .error e s') :
    s'.Holding ext.text key M ∧ s'.disk.wals = s.disk.wals := by
  obtain ⟨s₁, hs₁, hdisk, hrun⟩ := @onTable_of_some _ _ _ _ (InsertProgress × Bool) ht
  have hon : Engine.onTable ext.text key m s = .ok ({}, false) (Engine.putTable key t' s₁) := by
    rw [hrun m, zoom, hm]
  have hholding : (Engine.putTable key t' s₁).Holding ext.text key M :=
    ⟨t', tableOf_putTable_self hs₁ hres, hMt⟩
  rw [bind_of_ok hon] at herr
  rcases bind_error.mp herr with herr | ⟨_, s₂, hlog, herr⟩
  · cases herr
  · cases hlog
    rcases bind_error.mp herr with herr | ⟨_, s₂, -, herr⟩
    · refine ⟨?_, (wals_of_persistDeferred_error herr).trans (congrArg Disk.wals hdisk)⟩
      have hfinal := @preserves_persistDeferred _ io _ key' _ hM _ hholding
      rwa [herr] at hfinal
    · cases herr

theorem insert_atomic (ht : s.tableOf ext.text key = some t) {rows : List RowObject}
    {returning : Option (List String)}
    (herr : ∀ now, ∃ e s', dataInsert ext io now key rows returning s = .error e s') :
    LeavesAlone ext.text key s (fun now => dataInsert ext io now key rows returning) ↔
      (Statement.insert rows returning).RefusedFirst ext t := by
  have hres := resident_tableOf ht
  have hsame := @Table.sameRows_rebuild ext.text t
  have hres₀ := hsame.residency.trans hres
  have hcompat := congrArg TableSchema.compatIndexes hsame.schema
  have hrun : ∀ now, dataInsert ext io now key rows returning s =
      (Engine.onTable ext.text key (insertRows ⟨ext, now, s.schemaVersionFor key⟩ key rows returning) >>=
        commitInsert ext io key) s := fun now => bind_of_ok (m := get) rfl
  constructor
  · intro hall
    obtain ⟨c, hc⟩ := exists_fresh t.data.rows
    obtain ⟨e, s', herr⟩ := herr fun _ => c
    have hobs := hall _ e s' herr
    rw [hrun] at herr
    rcases @insertRows_cases ⟨ext, fun _ => c, s.schemaVersionFor key⟩ key returning _ hres rows
      with ⟨rfl, hinsert⟩ | ⟨row, rest, rfl, ⟨hrefuses, e', hinsert⟩ | ⟨-, hmarked⟩⟩
    · have hstable : Stable ext.text fun t' =>
          t'.schema = bumpTableVersion t.schema ∧ t'.IndexesCurrent := by
        refine ⟨fun t' ht' => ⟨Table.sameRows_rebuild.schema.trans ht'.1, ?_⟩⟩
        exact Table.rebuild_current t'
      obtain ⟨⟨t', ht', hschema, hcurrent⟩, -⟩ := insertNothing_error ht hinsert hres₀ hstable
        ⟨congrArg bumpTableVersion hsame.schema, bump_current (Table.rebuild_current t)⟩ herr
      rw [observed_eq ht'] at hobs
      obtain ⟨hcurrent, -, hversion⟩ := current_of_observed ht hcurrent (by rw [hschema]; rfl) hobs
      rw [hschema] at hversion
      exact ⟨hcurrent, .inr ⟨rfl, hversion⟩⟩
    · obtain ⟨s₁, hs₁, hobs₁⟩ := observed_of_refused (k := commitInsert ext io key) ht hinsert hres₀
      cases hs₁.symm.trans herr
      rw [hobs] at hobs₁
      obtain ⟨hcurrent, hcounters, -⟩ := current_of_observed ht
        ((Table.rebuild_current t).withCounters (applyDefaultsAndAutoinc t.schema row 0).autoIncNext)
        hcompat hobs₁.symm
      rw [Table.rebuild_of_current hcurrent] at hrefuses
      exact ⟨hcurrent, .inl ⟨row, rest, rfl, hrefuses, hcounters⟩⟩
    · refine absurd hobs (observed_ne_of_marked ht hc ?_)
      have hmarked := hmarked c fun _ => rfl
      have hfinal := holding_of_final (k := commitInsert ext io key) (M := Marked c) ht
        (preserves_commitInsert stable_marked) hmarked hmarked.resident
      rwa [herr] at hfinal
  · rintro ⟨hcurrent, hfirst⟩ now e s' herr
    have hinsert := @insertRows_cases ⟨ext, now, s.schemaVersionFor key⟩ key returning _ hres rows
    dsimp only at herr hinsert
    rw [hrun] at herr
    rw [Table.rebuild_of_current hcurrent] at hinsert
    rw [observed_eq ht]
    rcases hfirst with ⟨row, rest, rfl, hrefuses, hcounters⟩ | ⟨rfl, hversion⟩
    · rcases hinsert with ⟨hnil, -⟩ | ⟨row', rest', hcons, ⟨-, e', hinsert⟩ | ⟨htakes, -⟩⟩
      · cases hnil
      · cases hcons
        obtain ⟨s₁, hs₁, hobs₁⟩ := observed_of_refused (k := commitInsert ext io key) ht hinsert hres
        cases hs₁.symm.trans herr
        rw [hobs₁, ← hcounters]
        rfl
      · cases hcons
        exact absurd hrefuses htakes
    · rcases hinsert with ⟨-, hinsert⟩ | ⟨row, rest, hcons, -⟩
      · rw [bump_eq_self hcurrent hversion] at hinsert
        have hstable : Stable ext.text (· = t) :=
          ⟨fun t' ht' => by rw [ht', Table.rebuild_of_current hcurrent]⟩
        obtain ⟨⟨t', ht', rfl⟩, hwals⟩ := insertNothing_error ht hinsert hres hstable rfl herr
        rw [observed_eq ht', hwals]
      · cases hcons

theorem getTable_of_tableOf (ht : s.tableOf text key = some t) : ∃ t', s.getTable key = .ok t' := by
  obtain ⟨schema, hschema, h⟩ := Option.bind_eq_some_iff.mp ht
  obtain ⟨d, hd, -⟩ := Option.bind_eq_some_iff.mp h
  rcases hs : s.getSchema key with e | schema'
  · rw [hs] at hschema
    cases hschema
  · exact ⟨⟨schema', d⟩, by rw [Engine.getTable, hs, hd]; rfl⟩

/-- A sweep that affected nothing is not refused. -/
theorem sweepNothing_error {key' : TableKey} {m : EStateM String Table (List (List WalRowRecord))}
    (ht : s.tableOf text key = some t) (hm : m t = .ok [] t') :
    (Engine.onTable text key m >>= commitSweep ext io key') s ≠ .error e s' := by
  obtain ⟨s₁, -, -, hrun⟩ := @onTable_of_some _ _ _ _ (List (List WalRowRecord)) ht
  have hon : Engine.onTable text key m s = .ok [] (Engine.putTable key t' s₁) := by
    rw [hrun m, zoom, hm]
  rw [bind_of_ok hon]
  intro herr
  cases herr

theorem sweep_atomic (ht : s.tableOf ext.text key = some t) {f : Filter} {limit : Option ℕ}
    {refuses : Table → ℕ → Prop}
    {visit : Stamp → ℕ → EStateM String Table (Option (List WalRowRecord))}
    (hv : ∀ now, Visits f refuses ⟨ext, now, s.schemaVersionFor key⟩
      (visit ⟨ext, now, s.schemaVersionFor key⟩))
    (herr : ∀ now, ∃ e s', sweep ext io now key limit visit s = .error e s') :
    LeavesAlone ext.text key s (fun now => sweep ext io now key limit visit) ↔
      t.IndexesCurrent ∧ ∃ idx, (∀ j < idx, Passed f t j) ∧ refuses t idx := by
  have hres := resident_tableOf ht
  have hsame := @Table.sameRows_rebuild ext.text t
  have hres₀ := hsame.residency.trans hres
  have hcompat := congrArg TableSchema.compatIndexes hsame.schema
  have hrun : ∀ now, sweep ext io now key limit visit s =
      (Engine.onTable ext.text key (sweepRows ⟨ext, now, s.schemaVersionFor key⟩ limit
        (visit ⟨ext, now, s.schemaVersionFor key⟩)) >>= commitSweep ext io key) s := by
    intro now
    obtain ⟨t', ht'⟩ := getTable_of_tableOf ht
    unfold sweep
    rw [bind_of_ok (m := get) rfl, ht']
  constructor
  · intro hall
    obtain ⟨c, hc⟩ := exists_fresh t.data.rows
    obtain ⟨e, s', herr⟩ := herr fun _ => c
    have hobs := hall _ e s' herr
    rw [hrun] at herr
    rcases sweepRows_cases (hv fun _ => c) hres limit with hsweep | ⟨idx, hbefore,
      ⟨hrefuses, e', hsweep⟩ | ⟨-, -, hmarked⟩⟩
    · exact absurd herr (sweepNothing_error ht hsweep)
    · obtain ⟨s₁, hs₁, hobs₁⟩ := observed_of_refused (k := commitSweep ext io key) ht hsweep hres₀
      cases hs₁.symm.trans herr
      rw [hobs] at hobs₁
      obtain ⟨hcurrent, -, -⟩ := current_of_observed ht (Table.rebuild_current t) hcompat hobs₁.symm
      dsimp only at hrefuses hbefore
      rw [Table.rebuild_of_current hcurrent] at hrefuses hbefore
      exact ⟨hcurrent, idx, hbefore, hrefuses⟩
    · refine absurd hobs (observed_ne_of_marked ht hc ?_)
      have hmarked := hmarked c fun _ => rfl
      have hfinal := holding_of_final (k := commitSweep ext io key) (M := Marked c) ht
        (preserves_commitSweep stable_marked) hmarked hmarked.resident
      rwa [herr] at hfinal
  · rintro ⟨hcurrent, idx, hbefore, hrefuses⟩ now e s' herr
    have hsweep := sweepRows_cases (hv now) hres limit
    dsimp only at herr hsweep
    rw [hrun] at herr
    rw [Table.rebuild_of_current hcurrent] at hsweep
    rcases hsweep with hsweep | ⟨idx', hbefore', ⟨-, e', hsweep⟩ | ⟨hpassed, hrefuses', -⟩⟩
    · exact absurd herr (sweepNothing_error ht hsweep)
    · obtain ⟨s₁, hs₁, hobs₁⟩ := observed_of_refused (k := commitSweep ext io key) ht hsweep hres
      cases hs₁.symm.trans herr
      rw [hobs₁, observed_eq ht]
    · rcases Nat.lt_trichotomy idx idx' with hlt | rfl | hlt
      · exact absurd (hbefore' idx hlt) ((hv now).refuse idx t hrefuses)
      · exact absurd hrefuses hrefuses'
      · exact absurd (hbefore idx' hlt) hpassed

theorem vectorInsert_atomic (ht : s.tableOf ext.text key = some t) {params : VectorInsertParams}
    (herr : ∀ now, ∃ e s', vectorInsert ext io now key params s = .error e s') :
    LeavesAlone ext.text key s (fun now => vectorInsert ext io now key params) ↔
      (Statement.vectorInsert params).RefusedFirst ext t := by
  have hres := resident_tableOf ht
  have hrows : params.rows ≠ [] := by
    intro hnil
    obtain ⟨e, s', herr⟩ := herr fun _ => 0
    rw [vectorInsert, if_pos hnil] at herr
    cases herr
  have hrun : ∀ now, vectorInsert ext io now key params s =
      (Engine.onTable ext.text key (vectorRows ⟨ext, now, s.schemaVersionFor key⟩ params) >>=
        commitVector ext io key) s := by
    intro now
    rw [vectorInsert, if_neg hrows]
    exact bind_of_ok (m := get) rfl
  constructor
  · intro hall
    obtain ⟨c, hc⟩ := exists_fresh t.data.rows
    obtain ⟨e, s', herr⟩ := herr fun _ => c
    have hobs := hall _ e s' herr
    rw [hrun] at herr
    rcases @vectorRows_cases ⟨ext, fun _ => c, s.schemaVersionFor key⟩ _ _ hres hrows with
      ⟨htable, -⟩ | ⟨row, rest, hparams, ⟨hrefuses, -⟩ | ⟨-, -, hmarked⟩⟩
    · exact .inl htable
    · exact .inr ⟨row, rest, hparams, hrefuses⟩
    · refine absurd hobs (observed_ne_of_marked ht hc ?_)
      have hmarked := hmarked c fun _ => rfl
      have hfinal := holding_of_final (k := commitVector ext io key) (M := Marked c) ht
        (preserves_commitVector stable_marked) hmarked hmarked.resident
      rwa [herr] at hfinal
  · intro hfirst now e s' herr
    have hleft : ∀ {e'}, vectorRows ⟨ext, now, s.schemaVersionFor key⟩ params t = .error e' t →
        s'.observed ext.text key = s.observed ext.text key := by
      intro e' hvector
      obtain ⟨s₁, hs₁, hobs₁⟩ := observed_of_refused (k := commitVector ext io key) ht hvector hres
      cases hs₁.symm.trans ((hrun now).symm.trans herr)
      rw [hobs₁, observed_eq ht]
    rcases @vectorRows_cases ⟨ext, now, s.schemaVersionFor key⟩ _ _ hres hrows with
      ⟨-, e', hvector⟩ | ⟨row, rest, hparams, ⟨-, e', hvector⟩ | ⟨htable, htakes, -⟩⟩
    · exact hleft hvector
    · exact hleft hvector
    · rcases hfirst with ⟨e', he'⟩ | ⟨row', rest', hparams', hrefuses⟩
      · exact absurd he' (htable e')
      · cases hparams.symm.trans hparams'
        exact absurd hrefuses htakes

/-- Where there is no table to work on a statement leaves everything as it was. -/
theorem leavesAlone_of_none (ht : s.tableOf ext.text key = none) (st : Statement) :
    LeavesAlone ext.text key s fun now => st.run ext io now key := by
  have hon : ∀ {α β : Type} (m : EStateM String Table α) (k : α → EStateM String Engine β) {e s'},
      (Engine.onTable ext.text key m >>= k) s = .error e s' →
        s'.observed ext.text key = s.observed ext.text key := by
    intro α β m k e s' herr
    obtain ⟨e₁, s₁, hs₁, hobs⟩ := onTable_of_none (m := m) ht
    rw [bind_of_error hs₁] at herr
    cases herr
    exact hobs
  have hsweep : ∀ {now limit visit e s'}, sweep ext io now key limit visit s = .error e s' →
      s'.observed ext.text key = s.observed ext.text key := by
    intro now limit visit e s' herr
    unfold sweep at herr
    rw [bind_of_ok (m := get) rfl] at herr
    rcases hget : s.getTable key with e' | t' <;> simp only [hget] at herr
    · cases herr
      rfl
    · exact hon _ _ herr
  intro now e s' herr
  cases st with
  | insert rows returning =>
    have herr := map_error.mp herr
    rw [dataInsert, bind_of_ok (m := get) rfl] at herr
    exact hon _ _ herr
  | update u => exact hsweep (map_error.mp herr)
  | delete f => exact hsweep (map_error.mp herr)
  | vectorInsert params =>
    have herr := map_error.mp herr
    unfold vectorInsert at herr
    split at herr
    · cases herr
    · rw [bind_of_ok (m := get) rfl] at herr
      exact hon _ _ herr

/-- A statement that returns an error leaves the rows of its table, the indexes, the counters, the
table version and the log as they were, whatever the clock shows, exactly if it was refused for
the table as it was. -/
theorem statement_atomic_iff (ext : Externals) (io : Io) (key : TableKey) (s : Engine)
    (st : Statement) (herr : ∀ now, ∃ e s', st.run ext io now key s = .error e s') :
    (∀ now e s', st.run ext io now key s = .error e s' →
        s'.observed ext.text key = s.observed ext.text key) ↔
      ∀ t, s.tableOf ext.text key = some t → st.RefusedFirst ext t := by
  rcases ht : s.tableOf ext.text key with _ | t
  · exact ⟨fun _ t h => (by cases h), fun _ => leavesAlone_of_none ht st⟩
  · have hiff : (∀ t', some t = some t' → st.RefusedFirst ext t') ↔ st.RefusedFirst ext t :=
      ⟨fun h => h t rfl, fun h t' ht' => Option.some.inj ht' ▸ h⟩
    rw [hiff]
    cases st with
    | insert rows returning =>
      simp only [Statement.run, map_error] at herr ⊢
      exact insert_atomic ht herr
    | update u =>
      simp only [Statement.run, map_error] at herr ⊢
      exact sweep_atomic ht (fun now => visits_updateRow ⟨ext, now, _⟩ key u) herr
    | delete f =>
      simp only [Statement.run, map_error] at herr ⊢
      exact sweep_atomic ht (fun now => visits_deleteRow ⟨ext, now, _⟩ key f) herr
    | vectorInsert params =>
      simp only [Statement.run, map_error] at herr ⊢
      exact vectorInsert_atomic ht herr

end Statements

/-- The JSON text of a list of unsigned numbers. -/
def sampleText : LitsText := fun lits =>
  "[" ++ String.intercalate "," (lits.map fun
    | .u64 v => "\x7b\"t\":\"u64\",\"v\":" ++ toString v ++ "\x7d"
    | _ => "\x7b\"t\":\"null\"\x7d") ++ "]"

def sampleExternals : Externals where
  text := sampleText
  rowEtag _ version := toString version
  embeddingId dims _ _ := toString dims

def sampleKey : TableKey := ⟨"shop", "orders"⟩

def sampleSchema : TableSchema where
  columns := [⟨"id", "u64", false, false⟩]
  primaryKey := ["id"]

/-- A database with one empty table. -/
def sampleEngine : Engine where
  catalog := AList.insert "shop" (AList.insert "orders" sampleSchema ∅) ∅
  tables := Function.update (fun _ => none) sampleKey (some .empty)

def sampleRow (id : ℕ) : RowObject := Function.update (fun _ => none) "id" (some (.u64 id))

/-- The second row has the key of the first. -/
def sampleInsert : Statement := .insert [sampleRow 1, sampleRow 1] none

theorem statement_atomic_iff_sample :
    (∀ now e s', sampleInsert.run sampleExternals {} now sampleKey sampleEngine = .error e s' →
        s'.observed sampleText sampleKey = sampleEngine.observed sampleText sampleKey) ↔
      ∀ t, sampleEngine.tableOf sampleText sampleKey = some t →
        sampleInsert.RefusedFirst sampleExternals t :=
  statement_atomic_iff sampleExternals {} sampleKey sampleEngine sampleInsert
    fun _ => ⟨_, _, rfl⟩

/-- The statement returns an error and the first of its rows stays in the table. -/
theorem insert_not_atomic_sample : ∃ e s',
    sampleInsert.run sampleExternals {} (fun _ => 1) sampleKey sampleEngine = .error e s' ∧
      s'.observed sampleText sampleKey ≠ sampleEngine.observed sampleText sampleKey := by
  refine ⟨_, _, rfl, ?_⟩
  intro h
  have hrows := congrArg (fun o => o.content.map fun content => content.1.length) h
  revert hrows
  decide +kernel

end SkeinDB.Tables
