import SkeinDB.Tables.Writes

/-!
# The calls that write a table

Whatever a call does to the catalog, the log and the snapshots, the rows of its table afterwards
are those that its edits lead to.
-/
namespace SkeinDB.Tables
open SkeinDB.Transition

inductive Write
  | data (stmt : Statement)
  | merge (m : MergeApplyParams)

def Write.run (ext : Externals) (io : Io) (now : ℕ → ℕ) (key : TableKey) :
    Write → EStateM String Engine Unit
  | .data stmt => stmt.run ext io now key
  | .merge m => (fun _ => ()) <$> mergeApply ext io now key m

/-- What a write does while it has its table borrowed. -/
def Write.part (st : Stamp) (key : TableKey) : Write → EStateM String Table Unit
  | .data (.insert rows returning) => (fun _ => ()) <$> insertRows st key rows returning
  | .data (.update u) => (fun _ => ()) <$> sweepRows st u.limit (updateRow st key u)
  | .data (.delete f) => (fun _ => ()) <$> sweepRows st f.limit (deleteRow st key f)
  | .data (.vectorInsert params) =>
    if params.rows = [] then pure () else (fun _ => ()) <$> vectorRows st params
  | .merge m =>
    match m.policy with
    | .error e => throw e
    | .ok policy => fun t =>
      match mergeTable st key m policy t with
      | .error e => .error e t
      | .ok (_, t') => .ok () t'

/-- The edits that a write makes to a table. -/
def Write.Makes (text : LitsText) (t : Table) : Write → RowEdit → Prop
  | .data (.insert _ _), e => e.kind = .insert
  | .data (.update u), e => e.kind = .update ∧ e.writes = u.columns
  | .data (.delete _), e => e.kind = .delete
  | .data (.vectorInsert params), e => e.kind = .insert ∨ e.writes = {params.column} ∧
      (e.kind = .embed ∨
        e.kind = .embedDeleted ∧ ∃ row ∈ params.rows, row.namesDeleted text t)
  | .merge m, e => e.kind = .insert ∨ e.writes = m.columns t.schema ∧
      (e.kind = .merge ∨ e.kind = .revive ∧ m.namesDeleted text t)

def Write.ByColumn : Write → Prop
  | .data _ => True
  | .merge m => m.ByColumn

section Part
variable {st : Stamp} {key : TableKey} {t : Table}

theorem final_map {σ α β : Type} {m : EStateM String σ α} {g : α → β} {s : σ} :
    final ((g <$> m) s) = final (m s) := by
  rw [map_eq_pure_bind]
  rcases hm : m s with ⟨a, s'⟩ | ⟨e, s'⟩
  · rw [bind_of_ok hm]
    rfl
  · rw [bind_of_error hm]
    rfl

theorem Write.part_edits (w : Write) (hby : w.ByColumn) : ∃ hi,
    t.EditsTo st.now (w.Makes st.ext.text t) 0 (final (w.part st key t)) hi := by
  have hsame : ∃ hi, t.EditsTo st.now (w.Makes st.ext.text t) 0 t hi :=
    ⟨0, editsTo_of_same (.refl t) rfl le_rfl⟩
  cases w with
  | data stmt =>
    cases stmt with
    | insert rows returning =>
      rw [Write.part, final_map]
      exact insertRows_edits (fun e hkind => hkind) rows returning
    | update u =>
      rw [Write.part, final_map]
      exact sweepRows_edits (fun idx t => updateRow_edits (fun e hkind hwrites =>
        ⟨hkind, hwrites⟩) idx) u.limit
    | delete f =>
      rw [Write.part, final_map]
      exact sweepRows_edits (fun idx t => deleteRow_edits (fun e hkind => hkind) f idx) f.limit
    | vectorInsert params =>
      rw [Write.part]
      split
      · exact hsame
      · rw [final_map]
        exact vectorRows_edits (fun e hkind => .inl hkind)
          (fun e hkind hwrites => .inr ⟨hwrites, .inl hkind⟩)
          fun e hkind hwrites hnamed => .inr ⟨hwrites, .inr ⟨hkind, hnamed⟩⟩
  | merge m =>
    rw [Write.part]
    rcases hpolicy : m.policy with e | policy
    · exact hsame
    · obtain ⟨value, columns, hmerge, -⟩ := hby policy hpolicy
      dsimp only
      rcases hrun : mergeTable st key m policy t with e | ⟨result, t'⟩
      · exact hsame
      · exact mergeTable_edits (fun e hkind => .inl hkind)
          (fun e hkind hwrites => .inr ⟨hwrites, .inl hkind⟩)
          (fun e hkind hwrites hnamed => .inr ⟨hwrites, .inr ⟨hkind, hnamed⟩⟩) hmerge hrun

end Part

section Run
variable {ext : Externals} {io : Io} {now : ℕ → ℕ} {key : TableKey} {s : Engine} {t : Table}
  {M : Table → Prop}

theorem holding_sweep (hM : Stable ext.text M) (ht : s.tableOf ext.text key = some t)
    {limit : Option ℕ} {visit : Stamp → ℕ → EStateM String Table (Option (List WalRowRecord))}
    (hpart : M (final (sweepRows ⟨ext, now, s.schemaVersionFor key⟩ limit
      (visit ⟨ext, now, s.schemaVersionFor key⟩) t)))
    (hres : (final (sweepRows ⟨ext, now, s.schemaVersionFor key⟩ limit
      (visit ⟨ext, now, s.schemaVersionFor key⟩) t)).data.residency = .resident) :
    (final (sweep ext io now key limit visit s)).Holding ext.text key M := by
  obtain ⟨t', ht'⟩ := getTable_of_tableOf ht
  unfold sweep
  rw [bind_of_ok (m := get) rfl, ht']
  exact holding_of_final ht (preserves_commitSweep hM) hpart hres

/-- What a write made of its table is there afterwards. -/
theorem Write.holding (hM : Stable ext.text M) (ht : s.tableOf ext.text key = some t) (w : Write)
    (hpart : M (final (w.part ⟨ext, now, s.schemaVersionFor key⟩ key t)))
    (hres : (final (w.part ⟨ext, now, s.schemaVersionFor key⟩ key t)).data.residency = .resident) :
    (final (w.run ext io now key s)).Holding ext.text key M := by
  cases w with
  | data stmt =>
    cases stmt with
    | insert rows returning =>
      rw [Write.part, final_map] at hpart hres
      rw [Write.run, Statement.run, final_map]
      unfold dataInsert
      rw [bind_of_ok (m := get) rfl]
      exact holding_of_final ht (preserves_commitInsert hM) hpart hres
    | update u =>
      rw [Write.part, final_map] at hpart hres
      rw [Write.run, Statement.run, final_map]
      exact holding_sweep hM ht hpart hres
    | delete f =>
      rw [Write.part, final_map] at hpart hres
      rw [Write.run, Statement.run, final_map]
      exact holding_sweep hM ht hpart hres
    | vectorInsert params =>
      rw [Write.part] at hpart hres
      rw [Write.run, Statement.run, final_map]
      unfold vectorInsert
      split at hpart
      · rename_i hrows
        rw [if_pos hrows]
        exact ⟨t, ht, hpart⟩
      · rename_i hrows
        rw [if_neg hrows] at hres ⊢
        rw [final_map] at hpart hres
        rw [bind_of_ok (m := get) rfl]
        exact holding_of_final ht (preserves_commitVector hM) hpart hres
  | merge m =>
    rw [Write.part] at hpart hres
    rw [Write.run, final_map]
    unfold mergeApply
    rcases hpolicy : m.policy with e | policy <;> simp only [hpolicy] at hpart hres
    · exact ⟨t, ht, hpart⟩
    · dsimp only
      rw [bind_of_ok (m := get) rfl]
      refine holding_of_final ht (fun result => ?_) ?_ ?_
      · split
        · exact Preserves.bind preserves_persistCatalog fun _ =>
            Preserves.bind (preserves_persistTable hM) fun _ => preserves_pure _
        · exact preserves_pure _
      all_goals
        rcases hrun : mergeTable ⟨ext, now, s.schemaVersionFor key⟩ key m policy t with
          e | ⟨result, t'⟩ <;> simp only [hrun] at hpart hres ⊢
        · assumption
        · assumption

end Run

section Frame
variable {text : LitsText} {ext : Externals} {key key' : TableKey} {M : Table → Prop}

theorem frame_onTable {α : Type} (h : key ≠ key') (m : EStateM String Table α) :
    Preserves (Engine.Holding text key M) (Engine.onTable text key' m) := by
  have hload : Preserves (Engine.Holding text key M) (Engine.materializeStreamingTable text key') := by
    intro s hs
    unfold Engine.materializeStreamingTable
    rw [bind_of_ok (m := get) rfl]
    rcases s.tables key' with _ | data
    · exact hs
    · dsimp only
      rcases Engine.materialize text (s.getSchema key').toOption data with e | data
      · exact hs
      · obtain ⟨t, ht, hM⟩ := hs
        refine ⟨t, ?_, hM⟩
        rw [← ht]
        change Engine.tableOf text key
          { s with tables := Function.update s.tables key' (some data) } = s.tableOf text key
        simp [Engine.tableOf, Engine.getSchema, h]
  have hget : Preserves (Engine.Holding text key M) (Engine.getTableMut text key') := by
    refine Preserves.bind hload fun _ => Preserves.bind (fun s hs => hs) fun s => ?_
    rcases s.getSchema key' with e | schema
    · exact preserves_throw e
    · rcases s.tables key' with _ | data
      · exact preserves_throw _
      · exact preserves_pure _
  refine Preserves.bind hget fun t s hs => ?_
  obtain ⟨u, hu, hM⟩ := hs
  unfold zoom
  rcases m t with ⟨a, t'⟩ | ⟨e, t'⟩
  · exact ⟨u, (tableOf_putTable_of_ne h).trans hu, hM⟩
  · exact ⟨u, (tableOf_putTable_of_ne h).trans hu, hM⟩

theorem frame_sweep (hM : Stable ext.text M) (h : key ≠ key') (io : Io) (now : ℕ → ℕ)
    (limit : Option ℕ) (visit : Stamp → ℕ → EStateM String Table (Option (List WalRowRecord))) :
    Preserves (Engine.Holding ext.text key M) (sweep ext io now key' limit visit) := by
  unfold sweep
  intro s hs
  rw [bind_of_ok (m := get) rfl]
  rcases s.getTable key' with e | t
  · exact hs
  · exact final_bind_of (frame_onTable h _ s hs) fun affected => preserves_commitSweep hM affected

/-- A write leaves the other tables alone. -/
theorem frame_write (hM : Stable ext.text M) (h : key ≠ key') (w : Write) (io : Io) (now : ℕ → ℕ) :
    Preserves (Engine.Holding ext.text key M) (w.run ext io now key') := by
  intro s hs
  cases w with
  | data stmt =>
    cases stmt with
    | insert rows returning =>
      rw [Write.run, Statement.run, final_map]
      unfold dataInsert
      rw [bind_of_ok (m := get) rfl]
      exact final_bind_of (frame_onTable h _ s hs) fun done => preserves_commitInsert hM done
    | update u =>
      rw [Write.run, Statement.run, final_map]
      exact frame_sweep hM h io now u.limit _ s hs
    | delete f =>
      rw [Write.run, Statement.run, final_map]
      exact frame_sweep hM h io now f.limit _ s hs
    | vectorInsert params =>
      rw [Write.run, Statement.run, final_map]
      unfold vectorInsert
      split
      · exact hs
      · rw [bind_of_ok (m := get) rfl]
        exact final_bind_of (frame_onTable h _ s hs) fun progress => preserves_commitVector hM progress
  | merge m =>
    rw [Write.run, final_map]
    unfold mergeApply
    rcases m.policy with e | policy
    · exact hs
    · dsimp only
      rw [bind_of_ok (m := get) rfl]
      refine final_bind_of (frame_onTable h _ s hs) fun result => ?_
      split
      · exact Preserves.bind preserves_persistCatalog fun _ =>
          Preserves.bind (preserves_persistTable hM) fun _ => preserves_pure _
      · exact preserves_pure _

end Frame

end SkeinDB.Tables
