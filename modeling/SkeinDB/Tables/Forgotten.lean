import SkeinDB.Tables.Writes

/-!
# Keys with a deleted row only

An insertion under a key of which the index has only a deleted row does what it does when the
index has nothing for the key.
-/
namespace SkeinDB.Tables
open SkeinDB.Transition

section Forget
variable {text : LitsText} {t u : Table} {key key' : String}

theorem forget_pk_lt (d : TableData) (key : String) (k : String) (i : ℕ)
    (hi : Function.update d.pkIndex key none k = some i) : i < d.rows.length := by
  by_cases hk : k = key
  · subst hk
    rw [Function.update_self] at hi
    cases hi
  · rw [Function.update_of_ne hk] at hi
    exact d.pk_lt k i hi

/-- The table as if it had never had a row under the key. -/
def Table.forget (t : Table) (key : String) : Table :=
  { t with data := { t.data with
      pkIndex := Function.update t.data.pkIndex key none
      pk_lt := forget_pk_lt t.data key } }

/-- The second table is the first, or the first without its deleted row of the key. -/
def Forgets (key : String) (t u : Table) : Prop := u = t ∨ u = t.forget key ∧ t.liveAt key = none

theorem table_ext (hschema : t.schema = u.schema) (hrows : t.data.rows = u.data.rows)
    (hpk : t.data.pkIndex = u.data.pkIndex)
    (hindexes : t.data.secondaryIndexes = u.data.secondaryIndexes)
    (hres : t.data.residency = u.data.residency) : t = u := by
  obtain ⟨schema, rows, pkIndex, indexes, residency, hlt⟩ := t
  obtain ⟨schema', rows', pkIndex', indexes', residency', hlt'⟩ := u
  cases hschema
  cases hrows
  cases hpk
  cases hindexes
  cases hres
  rfl

theorem liveAt_forget (h : t.liveAt key = none) : (t.forget key).liveAt = t.liveAt := by
  funext key'
  by_cases hkey : key' = key
  · subst hkey
    rw [h]
    simp [Table.liveAt, Table.forget]
  · simp [Table.liveAt, Table.forget, hkey]

theorem forget_register (columns included : List String) :
    (t.forget key).registerSecondaryIndex text columns included =
      (t.registerSecondaryIndex text columns included).forget key := by
  unfold Table.registerSecondaryIndex
  dsimp only [Table.forget]
  rcases t.data.secondaryIndexes (secondaryIndexKey columns included) with _ | existing
  · rfl
  · dsimp only
    by_cases hbuilt : existing.builtVersion = t.schema.tableVersion <;> simp [hbuilt]

theorem forget_ensure : (t.forget key).ensureMysqlCompatSecondaryIndexes text =
    (t.ensureMysqlCompatSecondaryIndexes text).forget key := by
  unfold Table.ensureMysqlCompatSecondaryIndexes
  have hfold : ∀ (indexes : List CompatIndexDef) (t : Table), indexes.foldl
      (fun t index => t.registerSecondaryIndex text index.columns []) (t.forget key) =
      (indexes.foldl (fun t index => t.registerSecondaryIndex text index.columns []) t).forget key := by
    intro indexes
    induction indexes with
    | nil => exact fun _ => rfl
    | cons index indexes ih =>
      intro t
      rw [List.foldl_cons, List.foldl_cons, forget_register, ih]
  exact hfold t.schema.compatIndexes t

theorem forget_rebuild : (t.forget key).rebuildSecondaryIndexesIfStale text =
    (t.rebuildSecondaryIndexesIfStale text).forget key := by
  rw [Table.rebuildSecondaryIndexesIfStale, forget_ensure]
  rfl

theorem Forgets.rebuild (h : Forgets key t u) : Forgets key (t.rebuildSecondaryIndexesIfStale text)
    (u.rebuildSecondaryIndexesIfStale text) := by
  rcases h with rfl | ⟨rfl, hdead⟩
  · exact .inl rfl
  · refine .inr ⟨forget_rebuild, ?_⟩
    rw [liveAt_congr Table.sameRows_rebuild.rows Table.sameRows_rebuild.pkIndex]
    exact hdead

theorem Forgets.schema (h : Forgets key t u) : u.schema = t.schema := by
  rcases h with rfl | ⟨rfl, -⟩ <;> rfl

theorem Forgets.bump (h : Forgets key t u) : Forgets key (bump t) (bump u) := by
  rcases h with rfl | ⟨rfl, hdead⟩
  · exact .inl rfl
  · exact .inr ⟨rfl, hdead⟩

theorem Forgets.withCounters (h : Forgets key t u) (counters : String → Option ℕ) :
    Forgets key (t.withCounters counters) (u.withCounters counters) := by
  rcases h with rfl | ⟨rfl, hdead⟩
  · exact .inl rfl
  · exact .inr ⟨rfl, hdead⟩

theorem Forgets.checkInsert (h : Forgets key t u) (row : RowObject) :
    checkInsert text u row = checkInsert text t row := by
  rcases h with rfl | ⟨rfl, hdead⟩
  · rfl
  · have hconflict : ∀ key' skip, (t.forget key).primaryKeyConflict key' skip =
        t.primaryKeyConflict key' skip := by
      intro key' skip
      rw [conflict_eq, conflict_eq, liveAt_forget hdead]
    have hunique : (t.forget key).mysqlCompatUniqueConflict text row none =
        t.mysqlCompatUniqueConflict text row none := rfl
    rw [Tables.checkInsert, Tables.checkInsert, hunique]
    simp only [hconflict]
    rfl

/-- A row under the key makes the tables the same. -/
theorem Forgets.storeRow (h : Forgets key t u) (key' : String) {entry : RowEntry}
    (hlive : entry.deleted = false) :
    Forgets key (t.storeRow text key' entry) (u.storeRow text key' entry) := by
  rcases h with rfl | ⟨rfl, hdead⟩
  · exact .inl rfl
  · by_cases hkey : key' = key
    · subst hkey
      refine .inl (table_ext rfl rfl ?_ rfl rfl)
      exact @Function.update_idem String _ (fun _ => Option ℕ) key' none (some t.data.rows.length)
        t.data.pkIndex
    · refine .inr ⟨table_ext rfl rfl ?_ rfl rfl, ?_⟩
      · exact @Function.update_comm String _ (fun _ => Option ℕ) key key' (Ne.symm hkey) none
          (some t.data.rows.length) t.data.pkIndex
      · rw [liveAt_storeRow t key' hlive, Function.update_of_ne (Ne.symm hkey)]
        exact hdead

end Forget

section Insert
variable {st : Stamp} {key : TableKey} {k : String} {t u : Table}

theorem insertRow_forgets (returning : Option (List String)) (p : InsertProgress) (row : RowObject)
    (h : Forgets k t u) : SameRun (Forgets k) Eq (insertRow st key returning p row t)
      (insertRow st key returning p row u) := by
  unfold insertRow
  rw [bind_of_ok (m := get) rfl, bind_of_ok (m := get) rfl]
  dsimp only
  rw [bind_of_ok (m := set _) rfl, bind_of_ok (m := set _) rfl, h.schema]
  generalize applyDefaultsAndAutoinc t.schema row p.lastInsertId = fill
  have hcounters := h.withCounters fill.autoIncNext
  rcases notNullViolation t.schema fill.row with _ | column
  · dsimp only
    rw [bind_of_ok (m := modify _) rfl, bind_of_ok (m := get) rfl, bind_of_ok (m := modify _) rfl,
      bind_of_ok (m := get) rfl]
    have hrebuilt := @Forgets.rebuild st.ext.text _ _ _ hcounters
    rw [hrebuilt.checkInsert]
    rcases checkInsert st.ext.text _ fill.row with e | pk
    · exact .error hrebuilt
    · have hstored := @Forgets.storeRow st.ext.text _ _ _ hrebuilt (st.ext.text pk)
        (st.entry (Table.rebuildSecondaryIndexesIfStale st.ext.text
          (t.withCounters fill.autoIncNext)).schema p.walRecords.length fill.row false) rfl
      dsimp only
      rw [hrebuilt.schema]
      exact .ok rfl hstored
  · exact .error hcounters

/-- An insertion has the same answer, and leaves the same table once the key has a row. -/
theorem insertRows_forgets (rows : List RowObject) (returning : Option (List String))
    (h : Forgets k t u) : SameRun (Forgets k) Eq (insertRows st key rows returning t)
      (insertRows st key rows returning u) := by
  unfold insertRows
  rw [bind_of_ok (m := modify _) rfl, bind_of_ok (m := modify _) rfl]
  refine (SameRun.foldlM (fun p p' row t u hp h => ?_) rows rfl h.rebuild).bind
    fun p p' t u hp h => ?_
  · subst hp
    exact insertRow_forgets returning p row h
  · subst hp
    rw [bind_of_ok (m := modify _) rfl, bind_of_ok (m := modify _) rfl, bind_of_ok (m := get) rfl,
      bind_of_ok (m := get) rfl, h.bump.schema]
    exact .ok rfl h.bump

end Insert

section Merge
variable {st : Stamp} {key : TableKey} {m : MergeApplyParams} {policy : MergePolicy} {t : Table}
  {idx : ℕ} {entry : RowEntry}

/-- Two merges are refused alike, or end alike and leave the same live rows: only the tag of the
stored row may differ, which a merge that is not applied reports. -/
inductive MergedAlike :
    Except String (MergeApplyResult × Table) → Except String (MergeApplyResult × Table) → Prop
  | error {e} : MergedAlike (.error e) (.error e)
  | ok {r r' t t'} (result : r' = { r with etag := r'.etag }) (applied : r.applied = true → r' = r)
      (schema : t'.schema = t.schema)
      (rows : (liveRows t'.data.rows).Perm (liveRows t.data.rows)) :
      MergedAlike (.ok (r, t)) (.ok (r', t'))

theorem liveRows_revive {rows : List RowEntry} {old new new' : RowEntry}
    (hold : rows[idx]? = some old) (hdel : old.deleted = true) (hlive : new.deleted = false)
    (hlive' : new'.deleted = false) (hrow : new'.row = new.row) :
    (liveRows (rows ++ [new'])).Perm (liveRows (rows.set idx new)) := by
  induction rows generalizing idx with
  | nil => cases hold
  | cons entry rows ih =>
    cases idx with
    | zero =>
      cases hold
      have happend : liveRows (old :: rows ++ [new']) = liveRows rows ++ [new.row] := by
        simp [liveRows, hdel, hlive', hrow]
      have hset : liveRows ((old :: rows).set 0 new) = new.row :: liveRows rows := by
        simp [liveRows, hlive]
      rw [happend, hset]
      exact List.perm_append_singleton _ _
    | succ idx =>
      have hrest := @ih idx hold
      rw [List.cons_append, List.set_cons_succ]
      cases hentry : entry.deleted
      · have hcons : ∀ rows : List RowEntry, liveRows (entry :: rows) = entry.row :: liveRows rows := by
          intro rows
          simp [liveRows, hentry]
        rw [hcons, hcons]
        exact hrest.cons _
      · have hcons : ∀ rows : List RowEntry, liveRows (entry :: rows) = liveRows rows := by
          intro rows
          simp [liveRows, hentry]
        rw [hcons, hcons]
        exact hrest

theorem entryAt_forget (t : Table) (k : String) : (t.forget k).data.entryAt k = none := by
  rw [TableData.entryAt]
  change (Function.update t.data.pkIndex k none k).bind _ = none
  rw [Function.update_self]
  rfl

theorem checkMerged_cases (schema : TableSchema) (pk : List Lit) (merged : RowObject) :
    (∃ e, ∀ etag conflicts, checkMerged schema pk merged etag conflicts = .error e) ∨
    (∃ row, ∀ etag conflicts, checkMerged schema pk merged etag conflicts = .ok (row, none)) ∨
    ∃ row, ∀ etag conflicts, checkMerged schema pk merged etag conflicts =
      .ok (row, some (unapplied row etag (conflicts ++ ["constraint"]))) := by
  unfold checkMerged
  rcases ensurePkValues schema pk merged with e | row
  · exact .inl ⟨e, fun _ _ => rfl⟩
  · by_cases hnull : (notNullViolation schema row).isSome
    · refine .inr (.inr ⟨row, fun etag conflicts => ?_⟩)
      change Except.ok (row, if (notNullViolation schema row).isSome = true then _ else _) = _
      rw [if_pos hnull]
    · refine .inr (.inl ⟨row, fun etag conflicts => ?_⟩)
      change Except.ok (row, if (notNullViolation schema row).isSome = true then _ else _) = _
      rw [if_neg hnull]

theorem mergeExisting_forgets (hentry : t.data.entryAt (st.ext.text m.pk) = some (idx, entry))
    (hdel : entry.deleted = true) {value : String → Lit → Lit → Except String Lit}
    {columns : List String} (hpolicy : policy.merge = mergeRows value columns)
    (hcolumns : ∀ c, (m.incoming c).isSome → c ∈ columns) :
    MergedAlike (mergeExisting st m policy t idx entry)
      (mergeNew st m (t.forget (st.ext.text m.pk))) := by
  have hschema : (t.forget (st.ext.text m.pk)).schema = t.schema := rfl
  have hempty : policy.merge (fun _ => none) m.incoming = .ok m.incoming := by
    rw [hpolicy, mergeRows_empty]
    refine congrArg Except.ok (funext fun c => ?_)
    split
    · rfl
    · rename_i hc
      rcases hnone : m.incoming c with _ | v
      · rfl
      · exact absurd (hcolumns c (by rw [hnone]; rfl)) hc
  unfold mergeExisting mergeNew
  rw [if_pos hdel, hschema, hempty]
  split
  · rcases checkMerged_cases t.schema m.pk m.incoming with ⟨e, h⟩ | ⟨row, h⟩ | ⟨row, h⟩
    · rw [h, h]
      exact .error
    · rw [h, h]
      exact .ok rfl (fun _ => rfl) rfl (.refl _)
    · rw [h, h]
      exact .ok rfl (fun happlied => by cases happlied) rfl (.refl _)
  · change MergedAlike (checkMerged t.schema m.pk m.incoming _ [] >>= _) _
    rcases checkMerged_cases t.schema m.pk m.incoming with ⟨e, h⟩ | ⟨row, h⟩ | ⟨row, h⟩
    · rw [h, h]
      exact .error
    · rw [h, h]
      refine .ok rfl (fun _ => rfl) rfl ?_
      exact liveRows_revive (entryAt_eq_some hentry).2 hdel rfl rfl rfl
    · rw [h, h]
      exact .ok rfl (fun happlied => by cases happlied) rfl (.refl _)

/-- A merge under a key with a deleted row is as one under a new key. -/
theorem mergeTable_forgets (hentry : t.data.entryAt (st.ext.text m.pk) = some (idx, entry))
    (hdel : entry.deleted = true) {value : String → Lit → Lit → Except String Lit}
    {columns : List String} (hpolicy : policy.merge = mergeRows value columns)
    (hcolumns : ∀ c, (m.incoming c).isSome → c ∈ columns) :
    MergedAlike (mergeTable st key m policy t)
      (mergeTable st key m policy (t.forget (st.ext.text m.pk))) := by
  have hschema : (t.forget (st.ext.text m.pk)).schema = t.schema := rfl
  have hmerge := mergeExisting_forgets hentry hdel hpolicy hcolumns
  unfold mergeTable
  rw [hentry, entryAt_forget, hschema]
  split
  · exact .error
  split
  · exact .error
  have hguard : MergedAlike
      (if incomingPkConflict t.schema m.pk m.incoming then
        .ok (unapplied m.incoming (some (st.ext.rowEtag entry.row entry.version)) ["constraint"], t)
      else mergeExisting st m policy t idx entry)
      (if incomingPkConflict t.schema m.pk m.incoming then
        .ok (unapplied m.incoming none ["constraint"], t.forget (st.ext.text m.pk))
      else mergeNew st m (t.forget (st.ext.text m.pk))) := by
    by_cases hconflict : incomingPkConflict t.schema m.pk m.incoming = true
    · rw [if_pos hconflict, if_pos hconflict]
      exact .ok rfl (fun happlied => by cases happlied) rfl (.refl _)
    · rw [if_neg hconflict, if_neg hconflict]
      exact hmerge
  simp only [Option.map_some, Option.map_none, Option.filter, hdel]
  rcases m.minCausality.map fun min => ensureMinCausality min (key.db ++ "." ++ key.table)
    t.schema.tableVersion with _ | (e | ⟨⟩)
  · exact hguard
  · by_cases he : e ≠ "causality_not_satisfied"
    · simp only [if_pos he]
      exact .error
    · simp only [if_neg he]
      rcases ensurePkValues t.schema m.pk m.incoming with e | row
      · exact .error
      · exact .ok rfl (fun happlied => by cases happlied) rfl (.refl _)
  · exact hguard

end Merge

end SkeinDB.Tables
