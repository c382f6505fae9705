import SkeinDB.Queries.Stability
import SkeinDB.Tables.HistoryGc

/-!
# Reads before and after history GC

`skeindb/src/engine.rs`: a query as of a time that is not before the horizon finds after
`maintenance_history_gc` what it found before it, and an earlier one misses the rows that were
removed and no others.
-/
namespace SkeinDB.Queries
open SkeinDB.Tables SkeinDB.Transition

section Resident
variable {text : LitsText} {io : Io} {key key' : TableKey} {s : Engine} {t : Table}
  {horizon : Option ℕ} {keys : List TableKey}

theorem resident_getTableMut :
    Preserves (fun s => s.Resident key) (Engine.getTableMut text key') := by
  have hload : Preserves (fun s => s.Resident key) (Engine.materializeStreamingTable text key') := by
    rintro s ⟨d, hd, hres⟩
    unfold Engine.materializeStreamingTable
    rw [bind_of_ok (m := get) rfl]
    rcases hother : s.tables key' with _ | data
    · exact ⟨d, hd, hres⟩
    · dsimp only
      rcases hmat : Engine.materialize text (s.getSchema key').toOption data with e | data'
      · exact ⟨d, hd, hres⟩
      · by_cases hkey : key = key'
        · subst hkey
          exact ⟨data', Function.update_self .., resident_materialize hmat⟩
        · exact ⟨d, (Function.update_of_ne hkey ..).trans hd, hres⟩
  refine hload.bind fun _ => Preserves.bind (fun s hs => hs) fun s => ?_
  rcases s.getSchema key' with e | schema
  · exact preserves_throw e
  · rcases s.tables key' with _ | data
    · exact preserves_throw _
    · exact preserves_pure _

theorem resident_putTable (h : s.Resident key) (ht : t.data.residency = .resident) :
    (Engine.putTable key' t s).Resident key := by
  by_cases hkey : key = key'
  · subst hkey
    exact ⟨t.data, Function.update_self .., ht⟩
  · obtain ⟨d, hd, hres⟩ := h
    exact ⟨d, (Function.update_of_ne hkey ..).trans hd, hres⟩

theorem resident_of_getTableMut {s' : Engine} (h : Engine.getTableMut text key s = .ok t s') :
    t.data.residency = .resident := by
  rcases getTableMut_cases text key s with ⟨-, e, s₁, hrun, -⟩ | ⟨t₁, s₁, hsome, hrun, -, -⟩
  · cases hrun.symm.trans h
  · cases hrun.symm.trans h
    exact resident_tableOf hsome

theorem resident_refresh : Preserves (fun s => s.Resident key) (refreshTable text io key') := by
  refine Preserves.bind ?_ fun _ s hs => ?_
  · refine resident_getTableMut.bind_ok fun t s s' hget s₁ hs₁ => ?_
    have hres := (@preserves_rebuilt text t t (.of_sameRows (.refl t))).definition.residency.trans
      (resident_of_getTableMut hget)
    unfold zoom
    rcases hrun : rebuildPkIndex text t with ⟨_, t'⟩ | ⟨e, t'⟩ <;> rw [hrun] at hres
    · exact resident_putTable hs₁ hres
    · exact resident_putTable hs₁ hres
  · rcases persistTable_cases text io key' s with
      ⟨e, h⟩ | h | ⟨d, hd, hres, ⟨e, h⟩ | ⟨schema, hschema, h⟩⟩ <;> rw [h]
    · exact hs
    · exact hs
    · exact hs
    · apply resident_putTable hs
      exact Table.sameRows_rebuild.residency.trans hres

/-- A table in memory stays there. -/
theorem resident_historyGc (hkeys : keys.Nodup) (h : s.Resident key) :
    (final (maintenanceHistoryGc text io keys horizon s)).Resident key := by
  obtain ⟨report, -, hfinal⟩ := @historyGc_final text io horizon s keys hkeys
  rw [hfinal]
  apply Preserves.foldlM fun first key' => preserves_keepError resident_refresh first
  obtain ⟨d, hd, hres⟩ := h
  have hretained : (d.retain horizon).residency = .resident := residency_retain.trans hres
  by_cases hkey : key ∈ keys
  · refine ⟨d.collected horizon, by simp [Engine.purged, hkey, hd], ?_⟩
    rwa [TableData.collected, if_pos (isResident_iff.mpr hres)]
  · exact ⟨d, by simp [Engine.purged, hkey, hd], hres⟩

end Resident

section Reads
variable {X ι : Type} [DecidableEq ι] {text : LitsText} {io : Io} {sem : SelectSemantics X ι}
  {keys : List TableKey} {query : Query X} {args : List Lit} {e : ReadEngine} {key : TableKey}
  {horizon : Option ℕ} {h ts : ℕ} {t t' : Table}

/-- The engine that reads, after history GC, however it ends. -/
def ReadEngine.afterHistoryGc (text : LitsText) (io : Io) (keys : List TableKey)
    (horizonMs : Option ℕ) (e : ReadEngine) : ReadEngine :=
  { e with toEngine := final (maintenanceHistoryGc text io keys horizonMs e.toEngine) }

/-- The rows of a table that a query as of a time sees. -/
def visibleAsOf (ts : ℕ) (t : Table) : List RowEntry := t.data.rows.filter (rowVisibleAt (some ts))

/-- What can be seen at the horizon or later is kept. -/
theorem retained_of_visible {entry : RowEntry} (hts : h ≤ ts)
    (hvisible : rowVisibleAt (some ts) entry = true) : retained (some h) entry = true := by
  cases hdel : entry.deleted
  · exact retained_live hdel
  · by_cases hzero : entry.commitTsMs = 0
    · simp [retained, hzero]
    · have hlater : ts < entry.commitTsMs := by simpa [rowVisibleAt, hzero, hdel] using hvisible
      simp [retained, hdel, hzero, hts.trans_lt hlater]

theorem visibleAsOf_collected {inMemory : Prop} (hcollected : Collected horizon inMemory t t')
    (hmemory : inMemory) : visibleAsOf ts t' = (visibleAsOf ts t).filter (retained horizon) := by
  rw [visibleAsOf, visibleAsOf, hcollected.rows hmemory, List.filter_filter, List.filter_filter]
  exact List.filter_congr fun entry _ => Bool.and_comm _ _

theorem visibleAsOf_same {inMemory : Prop} (hts : h ≤ ts)
    (hcollected : Collected (some h) inMemory t t') : visibleAsOf ts t' = visibleAsOf ts t := by
  by_cases hmemory : inMemory
  · rw [visibleAsOf_collected hcollected hmemory]
    apply List.filter_eq_self.mpr
    intro entry hentry
    exact retained_of_visible hts (List.mem_filter.mp hentry).2
  · rw [visibleAsOf, visibleAsOf, hcollected.streamed hmemory]

/-- After history GC, in whatever order it takes the tables and whatever the disk refuses, a query
as of the horizon or a later time answers as before, and at each earlier time just the rows that
were removed are missing from its tables. -/
theorem history_gc_keeps_reads (hkeys : keys.Nodup) (hreads : ReadsTables sem args query e)
    (hscans : query.Scans sem (e.afterHistoryGc text io keys (some h)).holding args)
    (htables : ∀ key ∈ query.tableKeys, key ∈ keys ∧ ∃ t, e.tableOf text key = some t) :
    (∀ key ∈ query.tableKeys, ∃ t t', e.getTable key = .ok t ∧
      (e.afterHistoryGc text io keys (some h)).getTable key = .ok t' ∧
        ∀ ts, visibleAsOf ts t' = (visibleAsOf ts t).filter (retained (some h))) ∧
    ∀ ts, h ≤ ts → SameRun (fun _ _ => True) Eq (executeSelect sem e.holding args (some ts) query [])
      (executeSelect sem (e.afterHistoryGc text io keys (some h)).holding args (some ts) query []) := by
  have hafter : ∀ key ∈ query.tableKeys, ∃ t t', e.getTable key = .ok t ∧
      (e.afterHistoryGc text io keys (some h)).getTable key = .ok t' ∧
        t.data.residency = .resident ∧ Collected (some h) (key ∈ keys ∧ e.Resident key) t t' ∧
          e.Resident key := by
    intro key hkey
    obtain ⟨-, t, ht⟩ := htables key hkey
    obtain ⟨t', ht', hcollected⟩ := @historyGc_collected text io (some h) e.toEngine t key keys hkeys ht
    obtain ⟨_, _, hdata⟩ := Option.bind_eq_some_iff.mp ht
    obtain ⟨d, hd, -⟩ := Option.bind_eq_some_iff.mp hdata
    have hres : e.Resident key := ⟨d, hd, hreads.inMemory key hkey d hd⟩
    obtain ⟨d', hd', hres'⟩ := @resident_historyGc text io key e.toEngine (some h) keys hkeys hres
    refine ⟨t, t', getTable_of_resident ht (hreads.inMemory key hkey),
      getTable_of_resident ht' fun data hdata => ?_, resident_tableOf ht, hcollected, hres⟩
    cases hd'.symm.trans hdata
    exact hres'
  constructor
  · intro key hkey
    obtain ⟨t, t', ht, ht', -, hcollected, hres⟩ := hafter key hkey
    exact ⟨t, t', ht, ht', fun ts => visibleAsOf_collected hcollected ⟨(htables key hkey).1, hres⟩⟩
  · intro ts hts
    apply executeSelect_asOf hreads.noJoin (hreads.alike fun key hkey => ?_) hreads.scans hscans
    obtain ⟨t, t', ht, ht', hres, hcollected, -⟩ := hafter key hkey
    exact ⟨hreads.noView key hkey, hreads.noView key hkey, rfl, rfl, .inr ⟨t, t', ht, ht', hres,
      hcollected.definition, visibleAsOf_same hts hcollected⟩⟩

end Reads

section Sample

def ordersReader : ReadEngine := { Tables.ordersEngine with }

theorem ordersReader_reads : ReadsTables plainSemantics [] allOrders ordersReader where
  noJoin ref href := by
    rw [List.mem_singleton.mp href]
    trivial
  noView _ _ := rfl
  inMemory key hkey data hdata := by
    rw [List.mem_singleton.mp hkey] at hdata
    cases hdata
    rfl
  scans select predicate hselect hpredicate q hq := by
    cases hselect
    cases hpredicate
    cases hq
    exact ⟨rfl, fun _ _ => rfl⟩

/-- An order that was deleted at the horizon goes. -/
theorem history_gc_keeps_reads_sample :
    (∀ key ∈ allOrders.tableKeys, ∃ t t', ordersReader.getTable key = .ok t ∧
      (ordersReader.afterHistoryGc sampleText {} [sampleKey] (some 5)).getTable key = .ok t' ∧
        ∀ ts, visibleAsOf ts t' = (visibleAsOf ts t).filter (retained (some 5))) ∧
    ∀ ts, 5 ≤ ts → SameRun (fun _ _ => True) Eq
      (executeSelect plainSemantics ordersReader.holding [] (some ts) allOrders [])
      (executeSelect plainSemantics
        (ordersReader.afterHistoryGc sampleText {} [sampleKey] (some 5)).holding [] (some ts)
        allOrders []) := by
  apply history_gc_keeps_reads (List.nodup_singleton _) ordersReader_reads
  · intro select predicate hselect hpredicate q hq
    cases hselect
    cases hpredicate
    cases hq
    exact ⟨rfl, fun _ _ => rfl⟩
  · intro key hkey
    rw [List.mem_singleton.mp hkey]
    exact ⟨List.mem_singleton_self _, ordersTable, rfl⟩

end Sample

end SkeinDB.Queries
