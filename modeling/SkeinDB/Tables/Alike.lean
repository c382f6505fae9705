import SkeinDB.Transition.Thinning
import SkeinDB.Tables.Statements

/-!
# Tables that statements cannot tell apart

`skeindb/src/engine.rs`: a table keeps the rows that were deleted, and a copy of it without them
answers as it does, as long as no statement asks for the position or the version of a row.
-/
namespace SkeinDB.Tables
open SkeinDB.Transition

def liveRows (entries : List RowEntry) : List RowObject :=
  (entries.filter fun entry => !entry.deleted).map (·.row)

section Alike
variable {text : LitsText} {ρ : ℕ → ℕ} {t t' u u' : Table}

/-- What the rows of both tables at a position have to share. -/
def RowEntry.content (entry : RowEntry) : RowObject × Bool := (entry.row, entry.deleted)

/-- The position of the live row that the index of the primary key has for a key. -/
def Table.liveAt (t : Table) (key : String) : Option ℕ :=
  (t.data.pkIndex key).filter fun idx => t.data.rows[idx]?.any fun entry => !entry.deleted

/-- The second table has the rows of the first at the positions that `ρ` names; the first has
only tombstones elsewhere, and neither has indexes. -/
structure Alike (ρ : ℕ → ℕ) (t t' : Table) : Prop where
  columns : t'.schema.columns = t.schema.columns
  primaryKey : t'.schema.primaryKey = t.schema.primaryKey
  defaults : t'.schema.compatDefaults = t.schema.compatDefaults
  counters : t'.schema.autoIncNext = t.schema.autoIncNext
  indexes : t.schema.compatIndexes = []
  indexes' : t'.schema.compatIndexes = []
  mono : StrictMono ρ
  beyond : ∀ n, ρ (t'.data.rows.length + n) = t.data.rows.length + n
  rows : ∀ i, t.data.rows[ρ i]?.map RowEntry.content = t'.data.rows[i]?.map RowEntry.content
  passed : ∀ j ∉ Set.range ρ, ∀ entry ∈ t.data.rows[j]?, entry.deleted = true
  keys : ∀ key, t.liveAt key = (t'.liveAt key).map ρ

theorem liveAt_congr (hrows : u.data.rows = t.data.rows) (hpk : u.data.pkIndex = t.data.pkIndex)
    (key : String) : u.liveAt key = t.liveAt key := by
  rw [Table.liveAt, Table.liveAt, hrows, hpk]

theorem Alike.sameRows (h : Alike ρ t t') (hu : t.SameRows u) (hu' : t'.SameRows u') :
    Alike ρ u u' where
  columns := by rw [hu.schema, hu'.schema, h.columns]
  primaryKey := by rw [hu.schema, hu'.schema, h.primaryKey]
  defaults := by rw [hu.schema, hu'.schema, h.defaults]
  counters := by rw [hu.schema, hu'.schema, h.counters]
  indexes := by rw [hu.schema, h.indexes]
  indexes' := by rw [hu'.schema, h.indexes']
  mono := h.mono
  beyond := by rw [hu.rows, hu'.rows]; exact h.beyond
  rows := by rw [hu.rows, hu'.rows]; exact h.rows
  passed := by rw [hu.rows]; exact h.passed
  keys key := by
    rw [liveAt_congr hu.rows hu.pkIndex, liveAt_congr hu'.rows hu'.pkIndex, h.keys]

theorem Alike.rebuild (h : Alike ρ t t') : Alike ρ (t.rebuildSecondaryIndexesIfStale text)
    (t'.rebuildSecondaryIndexesIfStale text) :=
  h.sameRows Table.sameRows_rebuild Table.sameRows_rebuild

theorem Alike.withCounters (h : Alike ρ t t') (counters : String → Option ℕ) :
    Alike ρ (t.withCounters counters) (t'.withCounters counters) :=
  { h with counters := rfl }

theorem Alike.bump (h : Alike ρ t t') : Alike ρ (bump t) (bump t') :=
  ⟨h.columns, h.primaryKey, h.defaults, h.counters, h.indexes, h.indexes', h.mono, h.beyond, h.rows,
    h.passed, h.keys⟩

/-- The live rows of a list, position by position. -/
theorem liveRows_eq (entries : List RowEntry) : liveRows entries =
    (List.range entries.length).filterMap fun i =>
      (entries[i]?.map RowEntry.content).bind fun c => if c.2 then none else some c.1 := by
  induction entries using List.reverseRecOn with
  | nil => rfl
  | append_singleton entries entry ih =>
    have hfirst : ∀ i ∈ List.range entries.length, (entries ++ [entry])[i]? = entries[i]? :=
      fun i hi => List.getElem?_append_left (List.mem_range.mp hi)
    rw [List.length_append, List.length_singleton, List.range_succ, List.filterMap_append,
      List.filterMap_congr fun i hi => by rw [hfirst i hi], ← ih, List.filterMap_cons,
      List.getElem?_concat_length]
    cases hdel : entry.deleted <;> simp [liveRows, RowEntry.content, hdel]

theorem Alike.thins (h : Alike ρ t t') :
    Thins ρ (List.range t.data.rows.length) (List.range t'.data.rows.length) :=
  thins_range_of_eq h.mono (h.beyond 0)

theorem Alike.liveRows_eq (h : Alike ρ t t') : liveRows t'.data.rows = liveRows t.data.rows := by
  rw [Tables.liveRows_eq, Tables.liveRows_eq t.data.rows]
  refine (h.thins.filterMap_eq (fun j hj => ?_) fun i => by rw [h.rows]).symm
  rcases hentry : t.data.rows[j]? with _ | entry
  · rfl
  · have hdeleted := h.passed j hj entry hentry
    rw [Option.map_some, Option.bind_some, RowEntry.content, hdeleted]
    rfl

end Alike

section Rows
variable {text : LitsText} {ρ : ℕ → ℕ} {t t' : Table} {i : ℕ} {entry entry' : RowEntry}

theorem Alike.entry_eq (h : Alike ρ t t') (i : ℕ) :
    (t.data.rows[ρ i]? = none ∧ t'.data.rows[i]? = none) ∨ ∃ entry entry',
      t.data.rows[ρ i]? = some entry ∧ t'.data.rows[i]? = some entry' ∧
        entry'.row = entry.row ∧ entry'.deleted = entry.deleted := by
  have hrow := h.rows i
  rcases hentry : t.data.rows[ρ i]? with _ | entry <;>
    rcases hentry' : t'.data.rows[i]? with _ | entry' <;> rw [hentry, hentry'] at hrow
  · exact .inl ⟨rfl, rfl⟩
  · cases hrow
  · cases hrow
  · have hcontent := Option.some.inj hrow
    exact .inr ⟨entry, entry', rfl, rfl, (congrArg Prod.fst hcontent).symm,
      (congrArg Prod.snd hcontent).symm⟩

/-- A conflict is a live row in another position. -/
theorem conflict_eq (t : Table) (key : String) (skip : Option ℕ) :
    t.primaryKeyConflict key skip = (t.liveAt key).any fun idx => skip ≠ some idx := by
  rw [Table.primaryKeyConflict, Table.liveAt]
  rcases t.data.pkIndex key with _ | idx
  · rfl
  · rcases hentry : t.data.rows[idx]? with _ | entry
    · by_cases hskip : skip = some idx <;> simp [Option.filter, hentry, hskip]
    · cases hdel : entry.deleted <;> by_cases hskip : skip = some idx <;>
        simp [Option.filter, hentry, hskip, hdel]

theorem Alike.conflict (h : Alike ρ t t') (key : String) (skip : Option ℕ) :
    t.primaryKeyConflict key (skip.map ρ) = t'.primaryKeyConflict key skip := by
  rw [conflict_eq, conflict_eq, h.keys, Option.any_map]
  refine congrArg (Option.any · _) (funext fun idx => decide_eq_decide.mpr (not_congr ?_))
  rcases skip with _ | j
  · exact ⟨fun hskip => (by cases hskip), fun hskip => (by cases hskip)⟩
  · rw [Option.map_some, Option.some_inj, Option.some_inj, h.mono.injective.eq_iff]

theorem liveAt_storeRow (t : Table) (key : String) (hlive : entry.deleted = false) :
    (t.storeRow text key entry).liveAt =
      Function.update t.liveAt key (some t.data.rows.length) := by
  funext key'
  have hpk : (t.storeRow text key entry).data.pkIndex =
      Function.update t.data.pkIndex key (some t.data.rows.length) := rfl
  have hrows : (t.storeRow text key entry).data.rows = t.data.rows ++ [entry] := rfl
  rw [Table.liveAt, hpk, hrows]
  by_cases hkey : key' = key
  · rw [hkey, Function.update_self, Function.update_self]
    simp [Option.filter, hlive]
  · rw [Function.update_of_ne hkey, Function.update_of_ne hkey, Table.liveAt]
    rcases hidx : t.data.pkIndex key' with _ | idx
    · rfl
    · simp [Option.filter, List.getElem?_append_left (t.data.pk_lt key' idx hidx)]

theorem update_keys (h : Alike ρ t t') {n n' : ℕ} (hn : n = ρ n') (key : String) :
    ∀ key', Function.update t.liveAt key (some n) key' =
      (Function.update t'.liveAt key (some n') key').map ρ := by
  intro key'
  by_cases hkey : key' = key
  · rw [hkey, Function.update_self, Function.update_self, hn]
    rfl
  · rw [Function.update_of_ne hkey, Function.update_of_ne hkey, h.keys]

theorem Alike.storeRow (h : Alike ρ t t') (key : String) (hrow : entry'.row = entry.row)
    (hlive : entry.deleted = false) (hlive' : entry'.deleted = false) :
    Alike ρ (t.storeRow text key entry) (t'.storeRow text key entry') where
  columns := h.columns
  primaryKey := h.primaryKey
  defaults := h.defaults
  counters := h.counters
  indexes := h.indexes
  indexes' := h.indexes'
  mono := h.mono
  beyond n := by
    have hrows : (t.storeRow text key entry).data.rows = t.data.rows ++ [entry] := rfl
    have hrows' : (t'.storeRow text key entry').data.rows = t'.data.rows ++ [entry'] := rfl
    rw [hrows, hrows', List.length_append, List.length_append, List.length_singleton,
      List.length_singleton, Nat.add_assoc, h.beyond, Nat.add_assoc]
  rows k := by
    have hrows : (t.storeRow text key entry).data.rows = t.data.rows ++ [entry] := rfl
    have hrows' : (t'.storeRow text key entry').data.rows = t'.data.rows ++ [entry'] := rfl
    rw [hrows, hrows']
    rcases Nat.lt_or_ge k t'.data.rows.length with hk | hk
    · have hlt : ρ k < t.data.rows.length := (h.mono hk).trans_eq (h.beyond 0)
      rw [List.getElem?_append_left hk, List.getElem?_append_left hlt, h.rows]
    · obtain ⟨n, rfl⟩ := Nat.exists_eq_add_of_le hk
      rw [h.beyond, List.getElem?_append_right (Nat.le_add_right _ _),
        List.getElem?_append_right (Nat.le_add_right _ _), Nat.add_sub_cancel_left,
        Nat.add_sub_cancel_left]
      rcases n with _ | n
      · simp [RowEntry.content, hrow, hlive, hlive']
      · rfl
  passed j hj := by
    have hrows : (t.storeRow text key entry).data.rows = t.data.rows ++ [entry] := rfl
    rw [hrows]
    rcases Nat.lt_or_ge j t.data.rows.length with hlt | hge
    · rw [List.getElem?_append_left hlt]
      exact h.passed j hj
    · obtain ⟨n, rfl⟩ := Nat.exists_eq_add_of_le hge
      exact absurd ⟨_, h.beyond n⟩ hj
  keys key' := by
    rw [liveAt_storeRow t key hlive, liveAt_storeRow t' key hlive']
    exact update_keys h (h.beyond 0).symm key key'

/-- Both tables take a row in the same place. -/
theorem Alike.setRow (h : Alike ρ t t') (hcontent : entry'.content = entry.content)
    {u u' : Table} (hschema : u.schema = t.schema) (hschema' : u'.schema = t'.schema)
    (hrows : u.data.rows = t.data.rows.set (ρ i) entry)
    (hrows' : u'.data.rows = t'.data.rows.set i entry')
    (hkeys : ∀ key, u.liveAt key = (u'.liveAt key).map ρ) : Alike ρ u u' where
  columns := by rw [hschema, hschema', h.columns]
  primaryKey := by rw [hschema, hschema', h.primaryKey]
  defaults := by rw [hschema, hschema', h.defaults]
  counters := by rw [hschema, hschema', h.counters]
  indexes := by rw [hschema, h.indexes]
  indexes' := by rw [hschema', h.indexes']
  mono := h.mono
  beyond n := by rw [hrows, hrows', List.length_set, List.length_set, h.beyond]
  rows k := by
    have hk := h.rows k
    rw [hrows, hrows']
    by_cases hik : i = k
    · subst hik
      rw [List.getElem?_set_self', List.getElem?_set_self']
      rcases h.entry_eq i with ⟨hnone, hnone'⟩ | ⟨_, _, hsome, hsome', -⟩
      · rw [hnone, hnone']
        rfl
      · rw [hsome, hsome']
        exact congrArg some hcontent.symm
    · rw [List.getElem?_set_ne hik, List.getElem?_set_ne (h.mono.injective.ne hik), hk]
  passed j hj := by
    rw [hrows, List.getElem?_set_ne fun hij => hj ⟨i, hij⟩]
    exact h.passed j hj
  keys := hkeys

theorem liveAt_set {u : Table} {old : RowEntry} (hrows : u.data.rows = t.data.rows.set i entry)
    (hpk : u.data.pkIndex = t.data.pkIndex) (hold : t.data.rows[i]? = some old)
    (hsame : entry.deleted = old.deleted) : u.liveAt = t.liveAt := by
  have hlive : (fun idx : ℕ => (t.data.rows.set i entry)[idx]?.any fun entry : RowEntry => !entry.deleted) =
      fun idx => t.data.rows[idx]?.any fun entry : RowEntry => !entry.deleted := by
    funext idx
    by_cases hidx : i = idx
    · subst hidx
      rw [List.getElem?_set_self', hold]
      simp [hsame]
    · rw [List.getElem?_set_ne hidx]
  funext key
  rw [Table.liveAt, Table.liveAt, hpk, hrows, hlive]

theorem liveAt_remove {u : Table} (hrows : u.data.rows = t.data.rows.set i entry)
    (hpk : u.data.pkIndex = t.data.pkIndex) (hdel : entry.deleted = true) (key : String) :
    u.liveAt key = (t.liveAt key).filter (· ≠ i) := by
  have hlive : (fun idx : ℕ => (t.data.rows.set i entry)[idx]?.any fun entry : RowEntry => !entry.deleted) =
      fun idx => (t.data.rows[idx]?.any fun entry : RowEntry => !entry.deleted) && decide (idx ≠ i) := by
    funext idx
    by_cases hidx : i = idx
    · subst hidx
      rw [List.getElem?_set_self']
      rcases t.data.rows[i]? with _ | old <;> simp [hdel]
    · rw [List.getElem?_set_ne hidx]
      simp [Ne.symm hidx]
  rw [Table.liveAt, Table.liveAt, hpk, hrows, hlive, Option.filter_filter]

theorem liveAt_move {u : Table} {old : RowEntry} (hrows : u.data.rows = t.data.rows.set i entry)
    {oldKey newKey : String} (hpk : u.data.pkIndex =
      Function.update (Function.update t.data.pkIndex oldKey none) newKey (some i))
    (hold : t.data.rows[i]? = some old) (hlive : entry.deleted = false)
    (hlive' : old.deleted = false) :
    u.liveAt = Function.update (Function.update t.liveAt oldKey none) newKey (some i) := by
  funext key
  rw [Table.liveAt, hpk]
  by_cases hnew : key = newKey
  · rw [hnew, Function.update_self, Function.update_self, hrows]
    simp [Option.filter, List.getElem?_set_self', hold, hlive]
  · rw [Function.update_of_ne hnew, Function.update_of_ne hnew]
    by_cases hkey : key = oldKey
    · rw [hkey, Function.update_self, Function.update_self]
      rfl
    · rw [Function.update_of_ne hkey, Function.update_of_ne hkey]
      have hset := @liveAt_set t i entry ⟨t.schema, t.data.setRow i entry⟩ old rfl rfl hold
        (hlive.trans hlive'.symm)
      rw [← hset, hrows]
      rfl

theorem Alike.removeRow (h : Alike ρ t t') {old : RowObject} (hrow : entry'.row = entry.row)
    (hdel : entry.deleted = true) (hdel' : entry'.deleted = true) :
    Alike ρ (t.removeRow text (ρ i) old entry) (t'.removeRow text i old entry') := by
  refine h.setRow (i := i) (Prod.ext hrow (hdel'.trans hdel.symm)) rfl rfl rfl rfl fun key => ?_
  have hleft := @liveAt_remove t (ρ i) entry (t.removeRow text (ρ i) old entry) rfl rfl hdel key
  have hright := @liveAt_remove t' i entry' (t'.removeRow text i old entry') rfl rfl hdel' key
  rw [hleft, hright, h.keys]
  rcases t'.liveAt key with _ | j
  · rfl
  · by_cases hij : j = i
    · simp [Option.filter, hij]
    · simp [Option.filter, hij, h.mono.injective.ne hij]

theorem rewriteRow_of_moved (t : Table) (old : RowObject) {oldKey newKey : String}
    (hlt : i < t.data.rows.length) (hkey : oldKey ≠ newKey) :
    (t.rewriteRow text i old entry oldKey newKey).data.rows = t.data.rows.set i entry ∧
      (t.rewriteRow text i old entry oldKey newKey).data.pkIndex =
        Function.update (Function.update t.data.pkIndex oldKey none) newKey (some i) := by
  have hmoved : t.rewriteRow text i old entry oldKey newKey = _ := if_neg hkey
  have hset : i < (t.data.rows.set i entry).length := by rwa [List.length_set]
  rw [hmoved]
  dsimp only
  rw [TableData.movePk]
  split
  · exact ⟨rfl, rfl⟩
  · rename_i hnot
    exact absurd hset hnot

theorem rows_rewriteRow (t : Table) (old : RowObject) (oldKey newKey : String)
    (hlt : i < t.data.rows.length) :
    (t.rewriteRow text i old entry oldKey newKey).data.rows = t.data.rows.set i entry := by
  by_cases hkey : oldKey = newKey
  · have hkept : t.rewriteRow text i old entry oldKey newKey = _ := if_pos hkey
    rw [hkept]
    rfl
  · exact (rewriteRow_of_moved t old hlt hkey).1

theorem schema_rewriteRow (t : Table) (old : RowObject) (oldKey newKey : String) :
    (t.rewriteRow text i old entry oldKey newKey).schema = t.schema := by
  unfold Table.rewriteRow
  dsimp only
  split <;> rfl

theorem liveAt_rewriteRow (t : Table) {old : RowEntry} (hold : t.data.rows[i]? = some old)
    (hlive : old.deleted = false) (hentry : entry.deleted = false) (oldKey newKey : String) :
    (t.rewriteRow text i old.row entry oldKey newKey).liveAt = if oldKey = newKey then t.liveAt
      else Function.update (Function.update t.liveAt oldKey none) newKey (some i) := by
  have hlt : i < t.data.rows.length := (List.getElem?_eq_some_iff.mp hold).1
  split
  · rename_i hkey
    have hkept : t.rewriteRow text i old.row entry oldKey newKey = _ := if_pos hkey
    rw [hkept]
    exact liveAt_set rfl rfl hold (hentry.trans hlive.symm)
  · rename_i hkey
    obtain ⟨hrows, hpk⟩ := @rewriteRow_of_moved text i entry t old.row _ _ hlt hkey
    exact liveAt_move hrows hpk hold hentry hlive

theorem Alike.rewriteRow (h : Alike ρ t t') {old old' : RowEntry}
    (hold : t.data.rows[ρ i]? = some old) (hold' : t'.data.rows[i]? = some old')
    (hlive : old.deleted = false) (hlive' : old'.deleted = false) (hrow : entry'.row = entry.row)
    (hentry : entry.deleted = false) (hentry' : entry'.deleted = false) (oldKey newKey : String) :
    Alike ρ (t.rewriteRow text (ρ i) old.row entry oldKey newKey)
      (t'.rewriteRow text i old'.row entry' oldKey newKey) := by
  refine h.setRow (i := i) (Prod.ext hrow (hentry'.trans hentry.symm)) (schema_rewriteRow t _ _ _)
    (schema_rewriteRow t' _ _ _) (rows_rewriteRow t _ _ _ (List.getElem?_eq_some_iff.mp hold).1)
    (rows_rewriteRow t' _ _ _ (List.getElem?_eq_some_iff.mp hold').1) fun key => ?_
  rw [liveAt_rewriteRow t hold hlive hentry, liveAt_rewriteRow t' hold' hlive' hentry']
  split
  · exact h.keys key
  · by_cases hnew : key = newKey
    · rw [hnew, Function.update_self, Function.update_self]
      rfl
    · rw [Function.update_of_ne hnew, Function.update_of_ne hnew]
      by_cases hkey : key = oldKey
      · rw [hkey, Function.update_self, Function.update_self]
        rfl
      · rw [Function.update_of_ne hkey, Function.update_of_ne hkey, h.keys]

end Rows

section Checks
variable {text : LitsText} {ρ : ℕ → ℕ} {t t' : Table}

theorem Alike.fill (h : Alike ρ t t') (row : RowObject) (last : ℕ) :
    applyDefaultsAndAutoinc t'.schema row last = applyDefaultsAndAutoinc t.schema row last := by
  rw [applyDefaultsAndAutoinc, applyDefaultsAndAutoinc, h.columns, h.defaults, h.counters]

theorem Alike.notNull (h : Alike ρ t t') (row : RowObject) :
    notNullViolation t'.schema row = notNullViolation t.schema row := by
  rw [notNullViolation, notNullViolation, h.columns]

theorem Alike.extractPk (h : Alike ρ t t') (row : RowObject) :
    extractPk t'.schema row = extractPk t.schema row := by
  rw [Tables.extractPk, Tables.extractPk, h.primaryKey]

theorem unique_of_none (h : t.schema.compatIndexes = []) (row : RowObject) (skip : Option ℕ) :
    t.mysqlCompatUniqueConflict text row skip = none := by
  rw [Table.mysqlCompatUniqueConflict, h]
  rfl

theorem Alike.checkInsert (h : Alike ρ t t') (row : RowObject) :
    checkInsert text t' row = checkInsert text t row := by
  have hconflict : ∀ key, t.primaryKeyConflict key none = t'.primaryKeyConflict key none :=
    fun key => h.conflict key none
  rw [Tables.checkInsert, Tables.checkInsert, unique_of_none h.indexes, unique_of_none h.indexes',
    h.extractPk]
  simp only [hconflict, primaryKeyIndexName, h.primaryKey]

/-- An update that treats a row alike wherever it stands, and whatever its version is. -/
structure Update.Portable (u : Update) : Prop where
  predicate : ∀ i j row, u.predicate i row = u.predicate j row
  assignments : ∀ a ∈ u.assignments, ∀ i j row, a.2 i row = a.2 j row
  unmatched : u.ifMatch = none

theorem assign_eq (row : RowObject) (i j : ℕ)
    (assignments : List (String × (ℕ → RowObject → Except String Lit)))
    (h : ∀ a ∈ assignments, ∀ i j row, a.2 i row = a.2 j row) (start : RowObject) :
    assignments.foldlM (fun new a => return new.insert a.1 (← a.2 i row)) start =
      (assignments.foldlM (fun new a => return new.insert a.1 (← a.2 j row)) start :
        Except String RowObject) := by
  induction assignments generalizing start with
  | nil => rfl
  | cons a assignments ih =>
    rw [List.foldlM_cons, List.foldlM_cons, h a List.mem_cons_self i j]
    refine bind_congr fun new => ?_
    exact ih (fun a ha => h a (List.mem_cons_of_mem _ ha)) new

theorem Update.Portable.newRow {u : Update} (h : u.Portable) (i j : ℕ) (row : RowObject) :
    u.newRow i row = u.newRow j row := assign_eq row i j u.assignments h.assignments row

theorem Alike.checkUpdate {ext : Externals} {i : ℕ} {entry entry' : RowEntry} {u : Update}
    (h : Alike ρ t t') (hu : u.Portable) (hrow : entry'.row = entry.row) :
    checkUpdate ext u t' i entry' = checkUpdate ext u t (ρ i) entry := by
  have hconflict : ∀ key, t.primaryKeyConflict key (some (ρ i)) =
      t'.primaryKeyConflict key (some i) := fun key => h.conflict key (some i)
  rw [Tables.checkUpdate, Tables.checkUpdate, hu.unmatched, hrow, hu.newRow i (ρ i)]
  simp only [h.notNull, h.extractPk, hconflict, primaryKeyIndexName, h.primaryKey]
  rfl

end Checks

section Statements
variable {ρ : ℕ → ℕ} {t t' : Table} {st st' : Stamp} {key : TableKey}

/-- The same values have been drawn and returned, for as many rows. -/
structure SameProgress (p p' : InsertProgress) : Prop where
  lastInsertId : p'.lastInsertId = p.lastInsertId
  returning : p'.returning = p.returning
  affected : p'.walRecords.length = p.walRecords.length

theorem insertRow_alike (hst : st'.ext = st.ext) (returning : Option (List String))
    (p p' : InsertProgress) (row : RowObject) (hp : SameProgress p p') (h : Alike ρ t t') :
    SameRun (Alike ρ) SameProgress (insertRow st key returning p row t)
      (insertRow st' key returning p' row t') := by
  unfold insertRow
  rw [bind_of_ok (m := get) rfl, bind_of_ok (m := get) rfl]
  dsimp only
  rw [bind_of_ok (m := set _) rfl, bind_of_ok (m := set _) rfl, h.fill, hp.lastInsertId, h.notNull]
  have hcounters := h.withCounters (applyDefaultsAndAutoinc t.schema row p.lastInsertId).autoIncNext
  rcases notNullViolation t.schema (applyDefaultsAndAutoinc t.schema row p.lastInsertId).row with
    _ | column
  · dsimp only
    rw [bind_of_ok (m := modify _) rfl, bind_of_ok (m := modify _) rfl, bind_of_ok (m := get) rfl,
      bind_of_ok (m := get) rfl, hst]
    have hrebuilt := @Alike.rebuild st.ext.text _ _ _ hcounters
    rw [hrebuilt.checkInsert]
    rcases checkInsert st.ext.text (Table.rebuildSecondaryIndexesIfStale st.ext.text
      (t.withCounters (applyDefaultsAndAutoinc t.schema row p.lastInsertId).autoIncNext))
      (applyDefaultsAndAutoinc t.schema row p.lastInsertId).row with e | pk
    · exact .error hrebuilt
    · refine .ok ⟨rfl, ?_, ?_⟩ (hrebuilt.storeRow _ rfl rfl rfl)
      · rw [hp.returning]
      · rw [List.length_append, List.length_append, hp.affected]
        rfl
  · exact .error hcounters

theorem insertRows_alike (hst : st'.ext = st.ext) (returning : Option (List String))
    (rows : List RowObject) (h : Alike ρ t t') :
    SameRun (Alike ρ) (fun a b => SameProgress a.1 b.1) (insertRows st key rows returning t)
      (insertRows st' key rows returning t') := by
  unfold insertRows
  rw [bind_of_ok (m := modify _) rfl, bind_of_ok (m := modify _) rfl, hst]
  have hstart : SameProgress {} {} := ⟨rfl, rfl, rfl⟩
  have hrun := SameRun.foldlM (fun p p' row t t' hp h =>
    @insertRow_alike ρ t t' st st' key hst returning p p' row hp h) rows hstart
    (@Alike.rebuild st.ext.text _ _ _ h)
  exact hrun.bind fun p p' t t' hp h => .ok hp h.bump

theorem updateRow_alike (hst : st'.ext = st.ext) {u : Update} (hu : u.Portable) (i : ℕ)
    (h : Alike ρ t t') :
    SameRun (Alike ρ) (fun a b => a.isSome = b.isSome) (updateRow st key u (ρ i) t)
      (updateRow st' key u i t') := by
  unfold updateRow
  rw [bind_of_ok (m := get) rfl, bind_of_ok (m := get) rfl]
  rcases h.entry_eq i with ⟨hnone, hnone'⟩ | ⟨entry, entry', hentry, hentry', hrow, hdel⟩
  · simp only [hnone, hnone']
    exact .ok rfl h
  · have hmatches : u.matches i entry'.row = u.matches (ρ i) entry.row := by
      rw [Filter.matches, Filter.matches, hrow, hu.predicate i (ρ i)]
    simp only [hentry, hentry', hdel, hmatches]
    cases hlive : entry.deleted
    · have hlive' : entry'.deleted = false := hdel.trans hlive
      rcases u.matches (ρ i) entry.row with e | _ | _
      · exact .error h
      · exact .ok rfl h
      · simp only [hst, h.checkUpdate hu hrow]
        rcases checkUpdate st.ext u t (ρ i) entry with e | ⟨newRow, oldKey⟩
        · exact .error h
        · have hrebuilt := @Alike.rebuild st.ext.text _ _ _ h
          have hold := (@Table.sameRows_rebuild st.ext.text t).rows ▸ hentry
          have hold' := (@Table.sameRows_rebuild st.ext.text t').rows ▸ hentry'
          dsimp only
          rw [if_neg Bool.false_ne_true, if_neg Bool.false_ne_true]
          change SameRun _ _ ((modify _ >>= _ : EStateM _ _ _) t)
            ((modify _ >>= _ : EStateM _ _ _) t')
          rw [bind_of_ok (m := modify _) rfl, bind_of_ok (m := modify _) rfl,
            bind_of_ok (m := get) rfl, bind_of_ok (m := get) rfl,
            unique_of_none hrebuilt.indexes, unique_of_none hrebuilt.indexes', hrebuilt.extractPk]
          dsimp only
          rcases extractPk (Table.rebuildSecondaryIndexesIfStale st.ext.text t).schema newRow with
            e | newPk
          · exact .error hrebuilt
          · refine .ok rfl (hrebuilt.rewriteRow hold hold' hlive hlive' ?_ ?_ ?_ _ _)
            all_goals rfl
    · exact .ok rfl h

theorem deleteRow_alike (hst : st'.ext = st.ext) {f : Filter}
    (hf : ∀ i j row, f.predicate i row = f.predicate j row) (i : ℕ) (h : Alike ρ t t') :
    SameRun (Alike ρ) (fun a b => a.isSome = b.isSome) (deleteRow st key f (ρ i) t)
      (deleteRow st' key f i t') := by
  unfold deleteRow
  rw [bind_of_ok (m := get) rfl, bind_of_ok (m := get) rfl]
  rcases h.entry_eq i with ⟨hnone, hnone'⟩ | ⟨entry, entry', hentry, hentry', hrow, hdel⟩
  · simp only [hnone, hnone']
    exact .ok rfl h
  · have hmatches : f.matches i entry'.row = f.matches (ρ i) entry.row := by
      rw [Filter.matches, Filter.matches, hrow, hf i (ρ i)]
    simp only [hentry, hentry', hdel, hmatches, hst]
    cases hlive : entry.deleted
    · rcases f.matches (ρ i) entry.row with e | _ | _
      · exact .error h
      · exact .ok rfl h
      · rw [hrow]
        exact .ok rfl (h.removeRow rfl rfl rfl)
    · exact .ok rfl h

/-- A row that only the first table has is passed over. -/
theorem passed_of_dead {visit : ℕ → EStateM String Table (Option (List WalRowRecord))}
    (hnone : ∀ j (t : Table), t.data.rows[j]? = none → visit j t = .ok none t)
    (hdead : ∀ j t (entry : RowEntry), t.data.rows[j]? = some entry → entry.deleted = true →
      visit j t = .ok none t) (h : Alike ρ t t') {j : ℕ} (hj : j ∉ Set.range ρ) :
    visit j t = .ok none t := by
  rcases hentry : t.data.rows[j]? with _ | entry
  · exact hnone j t hentry
  · exact hdead j t entry hentry (h.passed j hj entry hentry)

theorem sweepRows_alike {text : LitsText} (hst : st.ext.text = text) (hst' : st'.ext.text = text)
    (limit : Option ℕ) {visit visit' : ℕ → EStateM String Table (Option (List WalRowRecord))}
    (hnone : ∀ j (t : Table), t.data.rows[j]? = none → visit j t = .ok none t)
    (hdead : ∀ j t (entry : RowEntry), t.data.rows[j]? = some entry → entry.deleted = true →
      visit j t = .ok none t)
    (hvisit : ∀ i t t', Alike ρ t t' →
      SameRun (Alike ρ) (fun a b => a.isSome = b.isSome) (visit (ρ i) t) (visit' i t'))
    (h : Alike ρ t t') :
    SameRun (Alike ρ) (fun a b => a.length = b.length) (sweepRows st limit visit t)
      (sweepRows st' limit visit' t') := by
  unfold sweepRows
  rw [bind_of_ok (m := modify _) rfl, bind_of_ok (m := modify _) rfl, bind_of_ok (m := get) rfl,
    bind_of_ok (m := get) rfl, hst, hst']
  have hrebuilt := @Alike.rebuild text _ _ _ h
  have hdone : ([] : List (List WalRowRecord)).length = ([] : List (List WalRowRecord)).length := rfl
  have hscan := SameRun.scan (fun j hj t t' h => ⟨t, passed_of_dead hnone hdead h hj, h⟩) hvisit limit
    hrebuilt.thins hdone hrebuilt
  refine hscan.bind fun affected affected' t t' hlength h => ?_
  have hempty : affected = [] ↔ affected' = [] := by
    rw [← List.length_eq_zero_iff, hlength, List.length_eq_zero_iff]
  by_cases hnil : affected = []
  · rw [hnil, hempty.mp hnil]
    exact .ok rfl h
  · rw [if_pos hnil, if_pos fun hnil' => hnil (hempty.mpr hnil')]
    exact .ok hlength h.bump

inductive DataStatement
  | insert (rows : List RowObject) (returning : Option (List String))
  | update (u : Update)
  | delete (f : Filter)

/-- A statement on the table that it borrows. -/
def DataStatement.write (st : Stamp) (key : TableKey) :
    DataStatement → EStateM String Table WriteResult
  | .insert rows returning => do
    let (done, _) ← insertRows st key rows returning
    return {
      affected := done.walRecords.length
      lastInsertId := done.lastInsertId
      returning := if done.returning = [] then none else some done.returning }
  | .update u => do
    return { affected := (← sweepRows st u.limit (updateRow st key u)).length }
  | .delete f => do
    return { affected := (← sweepRows st f.limit (deleteRow st key f)).length }

/-- The statement asks neither where a row stands nor for its version. -/
def DataStatement.Portable : DataStatement → Prop
  | .insert _ _ => True
  | .update u => u.Portable
  | .delete f => ∀ i j row, f.predicate i row = f.predicate j row

theorem write_alike (hst : st'.ext = st.ext) (stmt : DataStatement) (hstmt : stmt.Portable)
    (h : Alike ρ t t') :
    SameRun (Alike ρ) Eq (stmt.write st key t) (stmt.write st' key t') := by
  have hcount : ∀ a b : List (List WalRowRecord), a.length = b.length →
      ({ affected := a.length } : WriteResult) = { affected := b.length } := by
    intro a b hlength
    rw [hlength]
  cases stmt with
  | insert rows returning =>
    refine (insertRows_alike hst returning rows h).bind fun p p' t t' hp h => .ok ?_ h
    rw [hp.affected, hp.lastInsertId, hp.returning]
  | update u =>
    refine (sweepRows_alike rfl (congrArg Externals.text hst) u.limit (fun j t hnone => ?_)
      (fun j t entry hentry hdead => ?_) (fun i t t' h => updateRow_alike hst hstmt i h) h).bind
        fun a b t t' hlength h => .ok (hcount a b hlength) h
    · unfold updateRow
      rw [bind_of_ok (m := get) rfl, hnone]
      rfl
    · unfold updateRow
      rw [bind_of_ok (m := get) rfl, hentry]
      simp only [hdead]
      rfl
  | delete f =>
    refine (sweepRows_alike rfl (congrArg Externals.text hst) f.limit (fun j t hnone => ?_)
      (fun j t entry hentry hdead => ?_) (fun i t t' h => deleteRow_alike hst hstmt i h) h).bind
        fun a b t t' hlength h => .ok (hcount a b hlength) h
    · unfold deleteRow
      rw [bind_of_ok (m := get) rfl, hnone]
      rfl
    · unfold deleteRow
      rw [bind_of_ok (m := get) rfl, hentry]
      simp only [hdead]
      rfl

/-- The answer to a statement, with the live rows that are left, and the table as it is then: a
statement that is refused leaves what it has changed so far. -/
def DataStatement.serve (st : Stamp) (key : TableKey) (stmt : DataStatement) (t : Table) :
    (Except String WriteResult × List RowObject) × Table :=
  match stmt.write st key t with
  | .ok result t => ((.ok result, liveRows t.data.rows), t)
  | .error e t => ((.error e, liveRows t.data.rows), t)

/-- What a table answers to one statement after another. -/
def served (key : TableKey) :
    List (Stamp × DataStatement) → Table → List (Except String WriteResult × List RowObject)
  | [], _ => []
  | run :: runs, t =>
    (run.2.serve run.1 key t).1 :: served key runs (run.2.serve run.1 key t).2

theorem serve_alike (hst : st'.ext = st.ext) (stmt : DataStatement) (hstmt : stmt.Portable)
    (h : Alike ρ t t') : (stmt.serve st' key t').1 = (stmt.serve st key t).1 ∧
      Alike ρ (stmt.serve st key t).2 (stmt.serve st' key t').2 := by
  have hwrite := @write_alike ρ t t' st st' key hst stmt hstmt h
  rw [DataStatement.serve, DataStatement.serve]
  generalize stmt.write st key t = run at hwrite
  generalize stmt.write st' key t' = run' at hwrite
  cases hwrite with
  | ok hvalue hstate => exact ⟨Prod.ext (congrArg Except.ok hvalue.symm) hstate.liveRows_eq, hstate⟩
  | error hstate => exact ⟨Prod.ext rfl hstate.liveRows_eq, hstate⟩

theorem served_alike {runs runs' : List (Stamp × DataStatement)}
    (hruns : List.Forall₂ (fun a b => b.1.ext = a.1.ext ∧ b.2 = a.2 ∧ a.2.Portable) runs runs')
    (h : Alike ρ t t') : served key runs' t' = served key runs t := by
  induction hruns generalizing t t' with
  | nil => rfl
  | cons hrun _ ih =>
    obtain ⟨hst, hstmt, hportable⟩ := hrun
    rw [served, served, hstmt]
    obtain ⟨hanswer, hleft⟩ := @serve_alike ρ t t' _ _ key hst _ hportable h
    rw [hanswer, ih hleft]

end Statements

end SkeinDB.Tables
