import SkeinDB.Tables.Keyed
import SkeinDB.Transition.Runs

/-!
# What a key has since its last deletion

The values of a live row were all given to it after its key was last without a row, as long as no
vector insertion takes up a deleted row: that one keeps the columns it does not write.
-/
namespace SkeinDB.Tables
open SkeinDB.Transition

section Touches
variable {now : ℕ → ℕ} {P : RowEdit → Prop} {lo hi : ℕ} {t t' t'' : Table} {columns : Set String}
  {rows rows' : List RowEntry} {es : List RowEdit}

/-- What the live rows have in columns that were not written they had before, when they were
live. -/
def RowsTouched (columns : Set String) (rows rows' : List RowEntry) : Prop :=
  ∀ (i : ℕ) (old new : RowEntry), rows[i]? = some old → rows'[i]? = some new → new.deleted = false →
    ∀ c v, new.row c = some v → c ∈ columns ∨ old.deleted = false ∧ old.row c = some v

structure Touches (columns : Set String) (t t' : Table) : Prop where
  primaryKey : t'.schema.primaryKey = t.schema.primaryKey
  rows : RowsTouched columns t.data.rows t'.data.rows

theorem Touches.sameRows (h : Touches columns t t') (hsame : t'.SameRows t'') :
    Touches columns t t'' where
  primaryKey := by rw [hsame.schema, h.primaryKey]
  rows := by
    rw [hsame.rows]
    exact h.rows

/-- An edit that takes up no deleted row for a vector touches the columns that it writes. -/
theorem RowEdit.touches {e : RowEdit} (hvalid : e.Valid rows) (hkind : e.kind ≠ .embedDeleted)
    (hwrites : e.kind ≠ .insert → e.kind ≠ .delete → e.writes ⊆ columns) :
    RowsTouched columns rows (e.apply rows) := by
  intro i old new hold hnew hlive c v hv
  have hsame : rows[i]? = some new → c ∈ columns ∨ old.deleted = false ∧ old.row c = some v := by
    intro hnew
    cases hold.symm.trans hnew
    exact .inr ⟨hlive, hv⟩
  by_cases hinsert : e.kind = .insert
  · refine hsame ?_
    unfold RowEdit.apply at hnew
    rw [hinsert] at hnew
    rwa [List.getElem?_append_left (List.getElem?_eq_some_iff.mp hold).1] at hnew
  · rw [RowEdit.Valid, if_neg hinsert] at hvalid
    obtain ⟨entry, hentry, hchanges⟩ := hvalid
    have happly : e.apply rows = rows.set e.idx e.entry := by
      unfold RowEdit.apply
      split
      · rename_i hkind
        exact absurd hkind hinsert
      · rfl
    rw [happly] at hnew
    by_cases hi : e.idx = i
    · subst hi
      rw [List.getElem?_set_self (List.getElem?_eq_some_iff.mp hold).1] at hnew
      cases hnew
      cases hold.symm.trans hentry
      unfold RowEdit.Changes at hchanges
      rcases hk : e.kind with _ | _ | _ | _ | _ | _ | _ <;> simp only [hk] at hchanges
      · obtain ⟨hdel, -, -, hkeeps⟩ := hchanges
        exact (hkeeps c v hv).imp (fun hc => hwrites hinsert (by rw [hk]; decide) hc) fun h => ⟨hdel, h⟩
      · obtain ⟨-, hdel, -⟩ := hchanges
        rw [hlive] at hdel
        cases hdel
      · obtain ⟨hdel, -, -, hkeeps⟩ := hchanges
        exact (hkeeps c v hv).imp (fun hc => hwrites hinsert (by rw [hk]; decide) hc) fun h => ⟨hdel, h⟩
      · obtain ⟨-, -, -, hall⟩ := hchanges
        exact .inl (hwrites hinsert (by rw [hk]; decide) (hall c (Option.isSome_of_eq_some hv)))
      · obtain ⟨hdel, -, -, hkeeps⟩ := hchanges
        exact (hkeeps c v hv).imp (fun hc => hwrites hinsert (by rw [hk]; decide) hc) fun h => ⟨hdel, h⟩
      · exact absurd hk hkind
    · rw [List.getElem?_set_ne hi] at hnew
      exact hsame hnew

theorem RowEdit.length_le (e : RowEdit) (rows : List RowEntry) : rows.length ≤ (e.apply rows).length := by
  unfold RowEdit.apply
  split
  · rw [List.length_append]
    exact Nat.le_add_right _ _
  · rw [List.length_set]

theorem Edited.touches (h : Edited now lo rows es rows' hi)
    (hes : ∀ e ∈ es, e.kind ≠ .embedDeleted ∧
      (e.kind ≠ .insert → e.kind ≠ .delete → e.writes ⊆ columns)) :
    RowsTouched columns rows rows' := by
  induction h with
  | nil _ =>
    intro i old new hold hnew hlive c v hv
    cases hold.symm.trans hnew
    exact .inr ⟨hlive, hv⟩
  | @cons lo n hi rows rows' e es _ _ hvalid _ ih =>
    obtain ⟨hkind, hwrites⟩ := hes e List.mem_cons_self
    have hfirst := RowEdit.touches hvalid hkind hwrites
    have hrest := ih fun e he => hes e (List.mem_cons_of_mem _ he)
    intro i old new hold hnew hlive c v hv
    have hlt := (List.getElem?_eq_some_iff.mp hold).1.trans_le (e.length_le rows)
    have hmid := List.getElem?_eq_getElem hlt
    rcases hrest i _ new hmid hnew hlive c v hv with hc | ⟨hdel, hold'⟩
    · exact .inl hc
    · exact hfirst i old _ hold hmid hdel c v hold'

end Touches

section Written
variable {text : LitsText} {t t' : Table} {w : Write} {given : String → Set (String × Lit)}

/-- The columns to which a write gives a value in rows that are there. -/
def Write.columns (schema : TableSchema) : Write → Set String
  | .data (.update u) => u.columns
  | .data (.vectorInsert params) => {params.column}
  | .data _ => ∅
  | .merge m => m.columns schema

/-- The row of the key is deleted, or has another key now. -/
def LosesRow (text : LitsText) (t t' : Table) (key : String) : Prop :=
  ∃ i, t.keyAt text i = some key ∧ t'.keyAt text i ≠ some key

/-- A write stores a value under a key: in a row that is new or had another key, or in a column
to which it gives a value. -/
def Write.Stores (text : LitsText) (w : Write) (t t' : Table) (key : String) (cell : String × Lit) :
    Prop :=
  ∃ i entry, t'.data.rows[i]? = some entry ∧ t.data.rows[i]? ≠ some entry ∧
    t'.keyAt text i = some key ∧ entry.row cell.1 = some cell.2 ∧
    (t.data.rows.length ≤ i ∨ (∃ key', t.keyAt text i = some key' ∧ key' ≠ key) ∨
      cell.1 ∈ w.columns t.schema)

/-- The values that each key was given after it last lost its row. -/
def Write.gives (text : LitsText) (w : Write) (t t' : Table) (given : String → Set (String × Lit))
    (key : String) : Set (String × Lit) :=
  {cell | cell ∈ given key ∧ ¬LosesRow text t t' key ∨ w.Stores text t t' key cell}

/-- The values of the live rows are among those. -/
def Fresh (text : LitsText) (t : Table) (given : String → Set (String × Lit)) : Prop :=
  ∀ i key entry, t.keyAt text i = some key → t.data.rows[i]? = some entry →
    ∀ c v, entry.row c = some v → (c, v) ∈ given key

theorem Write.touches {st : Stamp} {key : TableKey} (hby : w.ByColumn)
    (hclean : w.Clean st.ext.text t) :
    (final (w.part st key t)).data.residency = t.data.residency ∧
      Touches (w.columns t.schema) t (final (w.part st key t)) := by
  obtain ⟨hi, hsame, es, hes, hmakes⟩ := @part_edits st key t w hby
  refine ⟨hsame.residency, hsame.primaryKey, hes.touches fun e he => ?_⟩
  have hmake := hmakes e he
  cases w with
  | data stmt =>
    cases stmt with
    | insert rows returning => exact ⟨by rw [hmake]; decide, fun hkind => absurd hmake hkind⟩
    | update u =>
      obtain ⟨hkind, hwrites⟩ := hmake
      exact ⟨by rw [hkind]; decide, fun _ _ => hwrites.subset⟩
    | delete f => exact ⟨by rw [hmake]; decide, fun _ hkind => absurd hmake hkind⟩
    | vectorInsert params =>
      rcases hmake with hkind | ⟨hwrites, hkind | ⟨-, row, hrow, hnamed⟩⟩
      · exact ⟨by rw [hkind]; decide, fun hkind' => absurd hkind hkind'⟩
      · exact ⟨by rw [hkind]; decide, fun _ _ => hwrites.subset⟩
      · exact absurd hnamed (hclean.rows row hrow).1
  | merge m =>
    rcases hmake with hkind | ⟨hwrites, hkind | ⟨hkind, -⟩⟩
    · exact ⟨by rw [hkind]; decide, fun hkind' => absurd hkind hkind'⟩
    · exact ⟨by rw [hkind]; decide, fun _ _ => hwrites.subset⟩
    · exact ⟨by rw [hkind]; decide, fun _ _ => hwrites.subset⟩

/-- What a row has after a write was given to its key by this write or before, and then the key
has not lost its row since. -/
theorem Fresh.write (h : Fresh text t given) (hkeyed : t.Keyed text)
    (htouches : Touches (w.columns t.schema) t t') : Fresh text t' (w.gives text t t' given) := by
  intro i key entry hkey hentry c v hv
  have hold : t.keyAt text i = some key → (c, v) ∈ given key →
      (c, v) ∈ w.gives text t t' given key := by
    intro hat hgiven
    refine .inl ⟨hgiven, ?_⟩
    rintro ⟨j, hj, hlost⟩
    exact hlost (hkeyed.unique hat hj ▸ hkey)
  have hstores : (t.data.rows.length ≤ i ∨ (∃ key', t.keyAt text i = some key' ∧ key' ≠ key) ∨
      c ∈ w.columns t.schema) → t.data.rows[i]? ≠ some entry →
      (c, v) ∈ w.gives text t t' given key :=
    fun hwhere hchanged => .inr ⟨i, entry, hentry, hchanged, hkey, hv, hwhere⟩
  by_cases hsame : t.data.rows[i]? = some entry
  · have hat : t.keyAt text i = some key := by
      rw [Table.keyAt, hentry, Option.bind_some, liveKey_congr htouches.primaryKey] at hkey
      rw [Table.keyAt, hsame, Option.bind_some, hkey]
    exact hold hat (h i key entry hat hsame c v hv)
  · rcases hbefore : t.data.rows[i]? with _ | old
    · exact hstores (.inl (List.getElem?_eq_none_iff.mp hbefore)) hsame
    · obtain ⟨entry', hentry', hlive⟩ := keyAt_eq_some.mp hkey
      cases hentry.symm.trans hentry'
      rcases htouches.rows i old entry hbefore hentry (live_of_key hlive) c v hv with
        hc | ⟨hdel, hkept⟩
      · exact hstores (.inr (.inr hc)) hsame
      · obtain ⟨key', hkey', -⟩ := hkeyed i old hbefore hdel
        have hat : t.keyAt text i = some key' := keyAt_eq_some.mpr ⟨old, hbefore, hkey'⟩
        by_cases hmoved : key' = key
        · subst hmoved
          exact hold hat (h i key' old hat hbefore c v hkept)
        · exact hstores (.inr (.inl ⟨key', hat, hmoved⟩)) hsame

end Written

section Runs
variable {ext : Externals} {key : TableKey}

/-- A call that writes a table, with what the file system and the clock do during it. -/
structure Call where
  io : Io
  now : ℕ → ℕ
  write : Write

/-- The state that a call leaves, whether it ends or is refused. -/
def Call.after (ext : Externals) (key : TableKey) (c : Call) (s : Engine) : Engine :=
  final (c.write.run ext c.io c.now key s)

/-- The engine, and what each key of a table was given after it last lost its row. -/
structure Traced where
  engine : Engine
  given : String → Set (String × Lit)

def Traced.step (ext : Externals) (key : TableKey) (x : Traced) (c : Call) : Option Traced :=
  let s := c.after ext key x.engine
  some {
    engine := s
    given := match x.engine.tableOf ext.text key, s.tableOf ext.text key with
      | some t, some t' => c.write.gives ext.text t t' x.given
      | _, _ => x.given }

/-- The call is a clean write of the table as it is. -/
def Call.Clean (ext : Externals) (key : TableKey) (x : Traced) (c : Call) : Prop :=
  c.write.ByColumn ∧ ∀ t, x.engine.tableOf ext.text key = some t → c.write.Clean ext.text t

def Traced.Sound (ext : Externals) (key : TableKey) (x : Traced) : Prop :=
  ∃ t, x.engine.tableOf ext.text key = some t ∧ t.Keyed ext.text ∧ Fresh ext.text t x.given

theorem keeps_sound :
    Keeps (Traced.step ext key) (Call.Clean ext key) (Traced.Sound ext key) := by
  rintro ⟨s, given⟩ c x' ⟨t, ht, hkeyed, hfresh⟩ ⟨hby, hclean⟩ hstep
  cases hstep
  have hpart := @Write.touches _ _ ⟨ext, c.now, s.schemaVersionFor key⟩ key hby
    (hclean t ht)
  have hholds := @Write.holding _ c.io c.now _ _ _
    (fun t' => t'.Keyed ext.text ∧ Touches (c.write.columns t.schema) t t')
    ⟨fun t' h => ⟨stable_keyed.rebuild t' h.1, h.2.sameRows Table.sameRows_rebuild⟩⟩ ht c.write
    ⟨c.write.keyed_part hkeyed (hclean t ht), hpart.2⟩ (hpart.1.trans (resident_tableOf ht))
  obtain ⟨t', ht', hkeyed', htouches⟩ := hholds
  refine ⟨t', ht', hkeyed', ?_⟩
  have hafter : (c.after ext key s).tableOf ext.text key = some t' := ht'
  have ht : s.tableOf ext.text key = some t := ht
  dsimp only
  rw [ht, hafter]
  exact hfresh.write hkeyed htouches

end Runs

end SkeinDB.Tables
