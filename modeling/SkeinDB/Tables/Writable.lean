import SkeinDB.Tables.Contents

/-!
# Statements whose writes to disk succeed

While no table is locked or corrupt and the disk takes what is written, a statement fails only
while it has its table borrowed.
-/
namespace SkeinDB.Tables
open SkeinDB.Transition

/-- The engine shows in each table what it showed in another state. -/
def Engine.Shows (text : LitsText) (s s' : Engine) : Prop :=
  ∀ key t, s.tableOf text key = some t → s'.Holding text key t.SameContents

/-- No table is locked or corrupt, and those that wait to be written have a schema. -/
structure Engine.Writable (s : Engine) : Prop where
  unlocked : ∀ key, s.refused key = false
  known : ∀ key ∈ s.dirtyTables, ∃ schema, s.getSchema key = .ok schema

/-- The engine can be written, and some tables have a schema. -/
def Engine.WritableAt (keys : List TableKey) (s : Engine) : Prop :=
  s.Writable ∧ ∀ key ∈ keys, ∃ schema, s.getSchema key = .ok schema

section Shows
variable {text : LitsText} {ext : Externals} {io : Io} {now : ℕ → ℕ} {key : TableKey}
  {s s' s'' : Engine}

theorem Engine.Shows.refl (s : Engine) : s.Shows text s := fun _ t ht => ⟨t, ht, .refl t⟩

theorem Engine.Shows.trans (h : s.Shows text s') (h' : s'.Shows text s'') : s.Shows text s'' := by
  intro key t ht
  obtain ⟨u, hu, hsame⟩ := h key t ht
  obtain ⟨v, hv, hsame'⟩ := h' key u hu
  exact ⟨v, hv, hsame.trans hsame'⟩

/-- A write that leaves the contents of its table leaves those of all. -/
theorem shows_write (w : Write)
    (h : ∀ t, s.tableOf ext.text key = some t →
      t.SameContents (final (w.part ⟨ext, now, s.schemaVersionFor key⟩ key t))) :
    s.Shows ext.text (final (w.run ext io now key s)) := by
  intro key' t ht
  by_cases hkey : key' = key
  · subst hkey
    exact w.holding stable_sameContents ht (h t ht)
      ((h t ht).definition.residency.trans (resident_tableOf ht))
  · exact frame_write stable_sameContents hkey w io now s ⟨t, ht, .refl t⟩

end Shows

section Writable
variable {text : LitsText} {ext : Externals} {key key' : TableKey} {keys : List TableKey}
  {s s' : Engine} {t t' : Table} {α β : Type}

theorem known_putTable (h : ∃ schema, s.getSchema key = .ok schema) :
    ∃ schema, (Engine.putTable key' t s).getSchema key = .ok schema := by
  obtain ⟨schema, hschema⟩ := h
  by_cases hkey : key = key'
  · subst hkey
    exact ⟨t.schema, getSchema_putTable_self hschema⟩
  · exact ⟨schema, (getSchema_putTable_of_ne hkey).trans hschema⟩

theorem Engine.Writable.putTable (h : s.Writable) : (Engine.putTable key t s).Writable :=
  ⟨h.unlocked, fun k hk => known_putTable (h.known k hk)⟩

theorem Engine.WritableAt.putTable (h : s.WritableAt keys) :
    (Engine.putTable key t s).WritableAt keys :=
  ⟨h.1.putTable, fun k hk => known_putTable (h.2 k hk)⟩

/-- Only what decides whether the engine can be written matters for it. -/
theorem Engine.WritableAt.congr (h : s.WritableAt keys) (hcatalog : s'.catalog = s.catalog)
    (hlocked : s'.encryptedLockedTables = s.encryptedLockedTables)
    (hcorrupt : s'.corruptTables = s.corruptTables)
    (hdirty : ∀ k ∈ s'.dirtyTables, k ∈ s.dirtyTables ∨ k ∈ keys) : s'.WritableAt keys := by
  have hschema : ∀ k, s'.getSchema k = s.getSchema k := by
    intro k
    rw [Engine.getSchema, Engine.getSchema, hcatalog]
  refine ⟨⟨fun k => ?_, fun k hk => ?_⟩, fun k hk => ?_⟩
  · rw [Engine.refused, hlocked, hcorrupt]
    exact h.1.unlocked k
  · rw [hschema]
    exact (hdirty k hk).elim (h.1.known k) (h.2 k)
  · rw [hschema]
    exact h.2 k hk

theorem succeeds_persistTable (hkey : key ∈ keys) :
    Succeeds (Engine.WritableAt keys) (Engine.persistTable text {} key) := by
  intro s hs
  have hunlocked := hs.1.unlocked key
  obtain ⟨schema, hschema⟩ := hs.2 key hkey
  rw [Engine.refused, Bool.or_eq_false_iff] at hunlocked
  unfold Engine.persistTable
  rw [bind_of_ok (m := get) rfl, hunlocked.1, hunlocked.2]
  rcases hd : s.tables key with _ | d
  · exact ⟨(), s, rfl, hs⟩
  rcases hres : d.residency with _ | segment
  · refine ⟨(), Engine.putTable key (Table.rebuildSecondaryIndexesIfStale text ⟨schema, d⟩)
      (s.saved key d), ?_, Engine.WritableAt.putTable ?_⟩
    · simp only [hschema, hres]
      rfl
    · exact hs.congr rfl rfl rfl fun k hk => .inl hk
  · refine ⟨(), s, ?_, hs⟩
    simp only [hres]
    rfl

theorem succeeds_persistCatalog : Succeeds (Engine.WritableAt keys) (Engine.persistCatalog {}) :=
  fun _ hs => ⟨(), _, rfl, hs.congr rfl rfl rfl fun _ hk => .inl hk⟩

theorem succeeds_walLogRows {db : String} {records : List WalRowRecord} :
    Succeeds (Engine.WritableAt keys) (Engine.walLogRows {} db records) := by
  intro s hs
  unfold Engine.walLogRows
  split
  · exact ⟨(), s, rfl, hs⟩
  · exact ⟨(), _, rfl, hs.congr rfl rfl rfl fun k hk => .inl hk⟩

theorem succeeds_persistDirty (hkey : key ∈ keys) :
    Succeeds (Engine.WritableAt keys) (Engine.persistDirty text {} key) := by
  refine (succeeds_persistTable hkey).bind fun _ s hs => ⟨(), _, rfl, ?_⟩
  exact hs.congr rfl rfl rfl fun _ hk => .inl (List.mem_of_mem_erase hk)

theorem Engine.WritableAt.mono {keys' : List TableKey} (h : s.WritableAt keys)
    (hkeys : keys' ⊆ keys) : s.WritableAt keys' :=
  ⟨h.1, fun k hk => h.2 k (hkeys hk)⟩

theorem succeeds_flush : Succeeds (Engine.WritableAt keys) (Engine.flushDirtyTables text {}) := by
  intro s hs
  unfold Engine.flushDirtyTables
  rw [bind_of_ok (m := get) rfl]
  split
  · exact ⟨(), _, rfl, hs.congr rfl rfl rfl fun _ hk => .inl hk⟩
  · have hall : s.WritableAt (s.dirtyTables ++ keys) :=
      ⟨hs.1, fun k hk => (List.mem_append.mp hk).elim (hs.1.known k) (hs.2 k)⟩
    have hsteps : Succeeds (Engine.WritableAt (s.dirtyTables ++ keys))
        (s.dirtyTables.foldlM (fun _ key => Engine.persistDirty text {} key) ()) :=
      Succeeds.foldlM (fun _ k hk => succeeds_persistDirty (List.mem_append_left keys hk)) ()
    obtain ⟨_, s₁, hrun, hs₁⟩ := hsteps s hall
    rw [bind_of_ok hrun]
    refine ⟨(), _, rfl, ?_⟩
    exact (hs₁.mono (List.subset_append_right _ keys)).congr rfl rfl rfl fun _ hk => .inl hk

theorem succeeds_persistDeferred (hkey : key ∈ keys) :
    Succeeds (Engine.WritableAt keys) (Engine.persistTableDeferred text {} key) := by
  intro s hs
  unfold Engine.persistTableDeferred
  rw [bind_of_ok (m := get) rfl, hs.1.unlocked key]
  have hdirty : ∀ s' : Engine, s'.catalog = s.catalog →
      s'.encryptedLockedTables = s.encryptedLockedTables → s'.corruptTables = s.corruptTables →
        (s'.dirtyTables = if key ∈ s.dirtyTables then s.dirtyTables else s.dirtyTables ++ [key]) →
          s'.WritableAt keys := by
    intro s' hcatalog hlocked hcorrupt hdirty
    refine hs.congr hcatalog hlocked hcorrupt fun k hk => ?_
    rw [hdirty] at hk
    split at hk
    · exact .inl hk
    · rcases List.mem_append.mp hk with hk | hk
      · exact .inl hk
      · rw [List.mem_singleton.mp hk]
        exact .inr hkey
  simp only [Bool.false_eq_true, if_false]
  rw [bind_of_ok (m := set _) rfl]
  split
  · exact succeeds_flush _ (hdirty _ rfl rfl rfl rfl)
  · exact ⟨(), _, rfl, hdirty _ rfl rfl rfl rfl⟩

theorem succeeds_commitInsert (hkey : key ∈ keys) (done : InsertProgress × Bool) :
    Succeeds (Engine.WritableAt keys) (commitInsert ext {} key done) := by
  have hrest : Succeeds (Engine.WritableAt keys) (do
      Engine.walLogRows {} key.db done.1.walRecords
      Engine.persistTableDeferred ext.text {} key
      return ({
        affected := done.1.walRecords.length
        lastInsertId := done.1.lastInsertId
        returning := if done.1.returning = [] then none else some done.1.returning } : WriteResult)) :=
    succeeds_walLogRows.bind fun _ => (succeeds_persistDeferred hkey).bind fun _ => succeeds_pure _
  unfold commitInsert
  dsimp only
  split
  · exact succeeds_persistCatalog.bind fun _ => hrest
  · exact hrest

theorem succeeds_commitSweep (hkey : key ∈ keys) (affected : List (List WalRowRecord)) :
    Succeeds (Engine.WritableAt keys) (commitSweep ext {} key affected) := by
  unfold commitSweep
  split
  · exact succeeds_persistCatalog.bind fun _ => succeeds_walLogRows.bind fun _ =>
      (succeeds_persistDeferred hkey).bind fun _ => succeeds_pure _
  · exact succeeds_pure _

theorem writable_getTableMut : Preserves Engine.Writable (Engine.getTableMut text key) := by
  have hload : Preserves Engine.Writable (Engine.materializeStreamingTable text key) := by
    intro s hs
    unfold Engine.materializeStreamingTable
    rw [bind_of_ok (m := get) rfl]
    rcases s.tables key with _ | data
    · exact hs
    · dsimp only
      rcases Engine.materialize text (s.getSchema key).toOption data with e | data
      · exact hs
      · exact ⟨hs.unlocked, hs.known⟩
  refine hload.bind fun _ => Preserves.bind (fun s hs => hs) fun s => ?_
  rcases s.getSchema key with e | schema
  · exact preserves_throw e
  · rcases s.tables key with _ | data
    · exact preserves_throw _
    · exact preserves_pure _

/-- What a statement does with its table is done in an engine that can be written. -/
theorem onTable_of_ok (hs : s.Writable) (ht : s.tableOf text key = some t)
    {m : EStateM String Table α} {a : α} (hm : m t = .ok a t') : ∃ s',
      Engine.onTable text key m s = .ok a s' ∧ s'.WritableAt [key] := by
  rcases getTableMut_cases text key s with ⟨hnone, -⟩ | ⟨t₁, s₁, hsome, hget, ht₁, -⟩
  · rw [hnone] at ht
    cases ht
  · cases hsome.symm.trans ht
    have hs₁ := @writable_getTableMut text key s hs
    rw [hget] at hs₁
    obtain ⟨schema, hschema, -⟩ := Option.bind_eq_some_iff.mp ht₁
    have hknown : s₁.WritableAt [key] := by
      refine ⟨hs₁, fun k hk => ?_⟩
      rw [List.mem_singleton.mp hk]
      rcases hget : s₁.getSchema key with e | schema'
      · rw [hget] at hschema
        cases hschema
      · exact ⟨schema', rfl⟩
    refine ⟨Engine.putTable key t' s₁, ?_, hknown.putTable⟩
    unfold Engine.onTable
    rw [bind_of_ok hget, zoom, hm]

theorem writable_onTable (m : EStateM String Table α) :
    Preserves Engine.Writable (Engine.onTable text key m) := by
  refine writable_getTableMut.bind fun t s hs => ?_
  unfold zoom
  rcases m t with ⟨a, t'⟩ | ⟨e, t'⟩
  · exact hs.putTable
  · exact hs.putTable

theorem writable_onTable_bind {m : EStateM String Table α} {k : α → EStateM String Engine β}
    (hk : ∀ a, Succeeds (Engine.WritableAt [key]) (k a)) :
    Preserves Engine.Writable (Engine.onTable text key m >>= k) := by
  intro s hs
  rcases ht : s.tableOf text key with _ | t
  · obtain ⟨e, s', herr, -⟩ := onTable_of_none (m := m) ht
    have hs' := @writable_onTable text key _ m s hs
    rw [herr] at hs'
    rw [bind_of_error herr]
    exact hs'
  · rcases hm : m t with ⟨a, t'⟩ | ⟨e, t'⟩
    · obtain ⟨s', hrun, hs'⟩ := onTable_of_ok hs ht hm
      rw [bind_of_ok hrun]
      exact ((hk a).preserves s' hs').1
    · have hs' := @writable_onTable text key _ m s hs
      obtain ⟨s₁, -, -, hrun⟩ := onTable_of_some ht
      have herr : Engine.onTable text key m s = .error e (Engine.putTable key t' s₁) := by
        rw [hrun, zoom, hm]
      rw [herr] at hs'
      rw [bind_of_error herr]
      exact hs'

end Writable

/-- The engine has one more row to show in a table. -/
structure Engine.Adds (text : LitsText) (key : TableKey) (row : RowObject) (s s' : Engine) : Prop where
  own : ∀ t, s.tableOf text key = some t →
    s'.Holding text key fun u => SameDefinition t u ∧ u.visible = t.visible ++ [row]
  others : ∀ key' ≠ key, ∀ t, s.tableOf text key' = some t → s'.Holding text key' t.SameContents

section Statements
variable {ext : Externals} {now : ℕ → ℕ} {key : TableKey} {s s' : Engine} {t : Table}

theorem writable_dataInsert (rows : List RowObject) (returning : Option (List String)) :
    Preserves Engine.Writable (dataInsert ext {} now key rows returning) := by
  intro s hs
  unfold dataInsert
  rw [bind_of_ok (m := get) rfl]
  exact writable_onTable_bind (fun done => succeeds_commitInsert List.mem_cons_self done) s hs

theorem writable_sweep (limit : Option ℕ)
    (visit : Stamp → ℕ → EStateM String Table (Option (List WalRowRecord))) :
    Preserves Engine.Writable (sweep ext {} now key limit visit) := by
  intro s hs
  unfold sweep
  rw [bind_of_ok (m := get) rfl]
  rcases s.getTable key with e | t
  · exact hs
  · exact writable_onTable_bind
      (fun affected => succeeds_commitSweep List.mem_cons_self affected) s hs

theorem commitInsert_result {io : Io} {done : InsertProgress × Bool} {w : WriteResult}
    (h : commitInsert ext io key done s = .ok w s') :
    w.affected = done.1.walRecords.length ∧ w.lastInsertId = done.1.lastInsertId := by
  have hend : ∀ s, (do
      Engine.walLogRows io key.db done.1.walRecords
      Engine.persistTableDeferred ext.text io key
      return ({
        affected := done.1.walRecords.length
        lastInsertId := done.1.lastInsertId
        returning := if done.1.returning = [] then none else some done.1.returning } :
          WriteResult) : EStateM String Engine WriteResult) s = .ok w s' →
      w.affected = done.1.walRecords.length ∧ w.lastInsertId = done.1.lastInsertId := by
    intro s h
    obtain ⟨-, s₁, -, h⟩ := bind_ok.mp h
    obtain ⟨-, s₂, -, h⟩ := bind_ok.mp h
    cases h
    exact ⟨rfl, rfl⟩
  unfold commitInsert at h
  dsimp only at h
  split at h
  · obtain ⟨-, s₁, -, h⟩ := bind_ok.mp h
    exact hend s₁ h
  · exact hend s h

/-- An insertion of one row that the table takes. -/
theorem dataInsert_one (hs : s.Writable) (ht : s.tableOf ext.text key = some t) {row : RowObject}
    (h : ¬RefusesInsert ext.text (t.rebuildSecondaryIndexesIfStale ext.text) row) :
    ∃ w s', dataInsert ext {} now key [row] none s = .ok w s' ∧ w.affected = 1 ∧
      w.lastInsertId = (applyDefaultsAndAutoinc t.schema row 0).lastInsertId ∧ s'.Writable ∧
      s.Adds ext.text key (applyDefaultsAndAutoinc t.schema row 0).row s' := by
  obtain ⟨progress, flag, u, hrows, hlength, hlast, hsame, hvisible⟩ :=
    @insertRows_one ⟨ext, now, s.schemaVersionFor key⟩ key _ _ h
  obtain ⟨s₁, htable, hs₁⟩ := onTable_of_ok hs ht hrows
  obtain ⟨w, s', hcommit, hs'⟩ :=
    @succeeds_commitInsert ext _ _ List.mem_cons_self (progress, flag) s₁ hs₁
  obtain ⟨haffected, hid⟩ := commitInsert_result hcommit
  have hrun : dataInsert ext {} now key [row] none s = .ok w s' := by
    unfold dataInsert
    rw [bind_of_ok (m := get) rfl]
    exact (bind_of_ok htable).trans hcommit
  have hwrite : final ((Write.data (.insert [row] none)).run ext {} now key s) = s' := by
    rw [Write.run, Statement.run, final_map, hrun, final_ok]
  refine ⟨w, s', hrun, haffected.trans hlength, hid.trans hlast, hs'.1, ?_, ?_⟩
  · intro t' ht'
    cases ht.symm.trans ht'
    have hpart : final ((Write.data (.insert [row] none)).part
        ⟨ext, now, s.schemaVersionFor key⟩ key t) = u := by
      rw [Write.part, final_map, hrows, final_ok]
    rw [← hwrite]
    refine Write.holding ⟨fun v hv => ?_⟩ ht _ ?_ ?_
    · have hrebuilt := (@Table.sameRows_rebuild ext.text v).sameShown.sameContents
      exact ⟨hv.1.trans hrebuilt.definition, hrebuilt.visible.trans hv.2⟩
    · rw [hpart]
      exact ⟨hsame, hvisible⟩
    · rw [hpart]
      exact hsame.residency.trans (resident_tableOf ht)
  · intro key' hkey t' ht'
    rw [← hwrite]
    exact frame_write stable_sameContents hkey _ {} now s ⟨t', ht', .refl t'⟩

/-- A deletion whose filter takes only the last of the rows that the table shows. -/
theorem dataDelete_one (hs : s.Writable) (ht : s.tableOf ext.text key = some t) {f : Filter}
    {vs : List RowObject} {row : RowObject} (hlimit : f.limit = some 1)
    (hvisible : t.visible = vs ++ [row]) (hpass : ∀ idx, ∀ v ∈ vs, f.matches idx v = .ok false)
    (htake : ∀ idx, f.matches idx row = .ok true) :
    ∃ w s', dataDelete ext {} now key f s = .ok w s' ∧ s'.Writable ∧
      s'.Holding ext.text key (fun u => SameDefinition t u ∧ u.visible = vs) ∧
      ∀ key' ≠ key, ∀ t', s.tableOf ext.text key' = some t' →
        s'.Holding ext.text key' t'.SameContents := by
  obtain ⟨records, u, hrows, hsame, hvs⟩ :=
    @deleteRows_one ⟨ext, now, s.schemaVersionFor key⟩ key _ _ _ _ hvisible hpass htake
  obtain ⟨s₁, htable, hs₁⟩ := onTable_of_ok hs ht hrows
  obtain ⟨w, s', hcommit, hs'⟩ :=
    @succeeds_commitSweep ext _ _ List.mem_cons_self [records] s₁ hs₁
  obtain ⟨t₀, ht₀⟩ := getTable_of_tableOf ht
  have hrun : dataDelete ext {} now key f s = .ok w s' := by
    unfold dataDelete sweep
    rw [bind_of_ok (m := get) rfl, ht₀, hlimit]
    exact (bind_of_ok htable).trans hcommit
  have hwrite : final ((Write.data (.delete f)).run ext {} now key s) = s' := by
    rw [Write.run, Statement.run, final_map, hrun, final_ok]
  have hpart : final ((Write.data (.delete f)).part ⟨ext, now, s.schemaVersionFor key⟩ key t) = u := by
    rw [Write.part, final_map, hlimit, hrows, final_ok]
  refine ⟨w, s', hrun, hs'.1, ?_, fun key' hkey t' ht' => ?_⟩
  · rw [← hwrite]
    refine Write.holding ⟨fun v hv => ?_⟩ ht _ ?_ ?_
    · have hrebuilt := (@Table.sameRows_rebuild ext.text v).sameShown.sameContents
      exact ⟨hv.1.trans hrebuilt.definition, hrebuilt.visible.trans hv.2⟩
    · rw [hpart]
      exact ⟨hsame, hvs⟩
    · rw [hpart]
      exact hsame.residency.trans (resident_tableOf ht)
  · rw [← hwrite]
    exact frame_write stable_sameContents hkey _ {} now s ⟨t', ht', .refl t'⟩

end Statements

end SkeinDB.Tables
