import SkeinDB.Tables.Keyed
import SkeinDB.Tables.RoundTrip
import SkeinDB.Tables.Writable

/-!
# History GC

`skeindb/src/engine.rs`: `maintenance_history_gc` removes the tombstones of the tables in memory
that are not younger than a horizon. It goes over all tables first and then gives each table that
has lost rows its primary-key index back and writes it; a table that fails is passed over.
-/
namespace SkeinDB.Tables
open SkeinDB.Transition

section Passes

/-- A row that history GC keeps. -/
def retained (horizonMs : Option ℕ) (entry : RowEntry) : Bool :=
  if !entry.deleted then true
  else if entry.commitTsMs = 0 then true
  else match horizonMs with
    | some h => h < entry.commitTsMs
    | none => false

def TableData.clearPk (d : TableData) : TableData :=
  { d with pkIndex := fun _ => none, pk_lt := by simp }

/-- The rows that are kept. Where some are not, the primary-key index is given up. -/
def TableData.retain (horizonMs : Option ℕ) (d : TableData) : TableData :=
  let rows := d.rows.filter (retained horizonMs)
  if 0 < d.rows.length - rows.length then
    { d with rows, pkIndex := fun _ => none, pk_lt := by simp }
  else d

structure HistoryGcReport where
  rowsScanned : ℕ := 0
  rowsPurged : ℕ := 0
  touched : List TableKey := []
  tables : List (TableKey × ℕ) := []

/-- A table that is not in memory is passed over. -/
def purgeTable (horizonMs : Option ℕ) (report : HistoryGcReport) (key : TableKey) :
    EStateM String Engine HistoryGcReport := do
  match (← get).tables key with
  | none => return report
  | some data =>
    if !data.isResident then return report
    else
      let purged := data.rows.length - (data.retain horizonMs).rows.length
      modify fun s =>
        { s with tables := Function.update s.tables key (some (data.retain horizonMs)) }
      return {
        rowsScanned := report.rowsScanned + data.rows.length
        rowsPurged := report.rowsPurged + purged
        touched := if 0 < purged then report.touched ++ [key] else report.touched
        tables := report.tables ++ [(key, purged)] }

theorem update_pk_lt {d : TableData} {idx : ℕ} (h : idx < d.rows.length) (key : String) (k : String)
    (i : ℕ) (hi : Function.update d.pkIndex key (some idx) k = some i) : i < d.rows.length := by
  by_cases hk : k = key
  · subst hk
    rw [Function.update_self] at hi
    cases hi
    exact h
  · rw [Function.update_of_ne hk] at hi
    exact d.pk_lt k i hi

def TableData.putPk (d : TableData) (key : String) (idx : ℕ) : TableData :=
  if h : idx < d.rows.length then
    { d with
      pkIndex := Function.update d.pkIndex key (some idx)
      pk_lt := update_pk_lt h key }
  else d

/-- Enter a row of a table into the primary-key index. -/
def reindexRow (text : LitsText) (slot : RowEntry × ℕ) : EStateM String Table Unit := do
  if slot.1.deleted then return ()
  else
    let t ← get
    match extractPk t.schema slot.1.row with
    | .error e => throw e
    | .ok pk =>
      set { t with data := t.data.putPk (text pk) slot.2 }
      if (t.data.pkIndex (text pk)).isSome then
        throw "conflict: duplicate primary key after history GC"

def rebuildPkIndex (text : LitsText) : EStateM String Table Unit := do
  modify fun t => { t with data := t.data.clearPk }
  (← get).data.rows.zipIdx.foldlM (fun _ slot => reindexRow text slot) ()
  modify fun t => { t with schema := bumpTableVersion t.schema }

def rebuildIndexesAfterHistoryGc (text : LitsText) (key : TableKey) :
    EStateM String Engine Unit :=
  Engine.onTable text key (rebuildPkIndex text)

def refreshTable (text : LitsText) (io : Io) (key : TableKey) : EStateM String Engine Unit := do
  rebuildIndexesAfterHistoryGc text key
  Engine.persistTable text io key

/-- An error is kept if it is the first one, and does not end the pass. -/
def keepError {σ : Type} (first : Option String) (m : EStateM String σ Unit) :
    EStateM String σ (Option String) := fun s =>
  match m s with
  | .ok _ s' => .ok first s'
  | .error e s' => .ok (first.or (some e)) s'

/-- `keys` are the tables in memory and on disk, in whatever order the map has them. -/
def maintenanceHistoryGc (text : LitsText) (io : Io) (keys : List TableKey)
    (horizonMs : Option ℕ) : EStateM String Engine HistoryGcReport := do
  let report ← keys.foldlM (purgeTable horizonMs) {}
  let firstErr ← report.touched.foldlM (fun first key => keepError first (refreshTable text io key))
    none
  match firstErr with
  | some e => throw ("history_gc_partial: " ++ e)
  | none => return report

end Passes

section Retained
variable {horizon : Option ℕ} {d : TableData} {entry : RowEntry}

@[simp] theorem retained_live (h : entry.deleted = false) : retained horizon entry = true := by
  simp [retained, h]

theorem deleted_of_not_retained (h : retained horizon entry = false) : entry.deleted = true := by
  by_contra hlive
  rw [retained_live (Bool.eq_false_iff.mpr hlive)] at h
  cases h

/-- The rows are those that are kept, whether any is removed or not. -/
theorem rows_retain : (d.retain horizon).rows = d.rows.filter (retained horizon) := by
  unfold TableData.retain
  dsimp only
  split
  · rfl
  · rename_i hsame
    have hlength := List.length_filter_le (retained horizon) d.rows
    exact (List.filter_sublist.eq_of_length (by omega)).symm

theorem residency_retain : (d.retain horizon).residency = d.residency := by
  unfold TableData.retain
  dsimp only
  split <;> rfl

theorem retain_of_none (h : ¬0 < d.rows.length - (d.retain horizon).rows.length) :
    d.retain horizon = d := by
  rw [rows_retain] at h
  exact if_neg h

theorem preserves_keepError {σ : Type} {P : σ → Prop} {m : EStateM String σ Unit}
    (h : Preserves P m) (first : Option String) : Preserves P (keepError first m) := by
  intro s hs
  have hfinal := h s hs
  unfold keepError
  rcases hm : m s with ⟨_, s'⟩ | ⟨e, s'⟩ <;> rw [hm] at hfinal <;> exact hfinal

end Retained

section Purge
variable {horizon : Option ℕ} {s s' : Engine} {key : TableKey} {keys : List TableKey}
  {report : HistoryGcReport}

/-- The rows of a table after the first pass. -/
def TableData.collected (horizonMs : Option ℕ) (d : TableData) : TableData :=
  if d.isResident then d.retain horizonMs else d

/-- The number of rows that a table loses. -/
def Engine.lost (horizonMs : Option ℕ) (s : Engine) (key : TableKey) : ℕ :=
  match s.tables key with
  | none => 0
  | some d => d.rows.length - (d.collected horizonMs).rows.length

/-- The table is there and in memory. -/
def Engine.inMemory (s : Engine) (key : TableKey) : Bool := (s.tables key).any (·.isResident)

/-- The engine after the first pass. -/
def Engine.purged (horizonMs : Option ℕ) (keys : List TableKey) (s : Engine) : Engine :=
  { s with tables := fun key =>
      if key ∈ keys then (s.tables key).map (·.collected horizonMs) else s.tables key }

/-- What the first pass reports. -/
structure Purges (horizon : Option ℕ) (keys : List TableKey) (s : Engine)
    (report report' : HistoryGcReport) : Prop where
  touched : report'.touched = report.touched ++ keys.filter fun key => 0 < s.lost horizon key
  rowsPurged : report'.rowsPurged = report.rowsPurged + (keys.map (s.lost horizon)).sum
  tables : report'.tables =
    report.tables ++ (keys.filter s.inMemory).map fun key => (key, s.lost horizon key)

theorem purgeTable_run (horizon : Option ℕ) (report : HistoryGcReport) (key : TableKey)
    (s : Engine) : ∃ report', purgeTable horizon report key s = .ok report' (s.purged horizon [key]) ∧
      Purges horizon [key] s report report' := by
  have htables : ∀ d, s.tables key = d → (s.purged horizon [key]).tables =
      Function.update s.tables key (d.map (·.collected horizon)) := by
    rintro d rfl
    funext key'
    by_cases hkey : key' = key
    · subst hkey
      simp [Engine.purged]
    · simp [Engine.purged, hkey]
  have hsame : ∀ d, s.tables key = d → d.map (·.collected horizon) = d →
      s.purged horizon [key] = s := by
    intro d hd hcollected
    have htables := htables d hd
    rw [hcollected, ← hd, Function.update_eq_self] at htables
    exact congrArg (fun tables => { s with tables := tables }) htables
  unfold purgeTable
  rw [bind_of_ok (m := get) rfl]
  rcases hd : s.tables key with _ | d
  · refine ⟨report, ?_, ?_, ?_, ?_⟩
    · rw [hsame none hd rfl]
      rfl
    · simp [Engine.lost, hd]
    · simp [Engine.lost, hd]
    · simp [Engine.inMemory, hd]
  · cases hres : d.isResident
    · have hkept : d.collected horizon = d := by simp [TableData.collected, hres]
      refine ⟨report, ?_, ?_, ?_, ?_⟩
      · rw [hsame (some d) hd (congrArg some hkept)]
        simp only [hres]
        rfl
      · simp [Engine.lost, hd, hkept]
      · simp [Engine.lost, hd, hkept]
      · simp [Engine.inMemory, hd, hres]
    · have hkept : d.collected horizon = d.retain horizon := by simp [TableData.collected, hres]
      have hpurged : { s with tables := Function.update s.tables key (some (d.retain horizon)) } =
          s.purged horizon [key] := by
        rw [← hkept]
        exact (congrArg (fun tables => { s with tables := tables }) (htables (some d) hd)).symm
      have hlost : s.lost horizon key = d.rows.length - (d.retain horizon).rows.length := by
        rw [← hkept]
        simp [Engine.lost, hd]
      refine ⟨_, by simp only [hres, ← hpurged]; rfl, ?_, ?_, ?_⟩
      · dsimp only
        rw [List.filter_singleton, hlost]
        split <;> simp_all
      · simp [hlost]
      · simp [Engine.inMemory, hd, hres, hlost]

theorem lost_purged {key' : TableKey} (h : key' ≠ key) :
    (s.purged horizon [key]).lost horizon key' = s.lost horizon key' := by
  simp [Engine.lost, Engine.purged, h]

theorem inMemory_purged {key' : TableKey} (h : key' ≠ key) :
    (s.purged horizon [key]).inMemory key' = s.inMemory key' := by
  simp [Engine.inMemory, Engine.purged, h]

theorem purged_purged (h : key ∉ keys) :
    (s.purged horizon [key]).purged horizon keys = s.purged horizon (key :: keys) := by
  have htables : ((s.purged horizon [key]).purged horizon keys).tables =
      (s.purged horizon (key :: keys)).tables := by
    funext key'
    by_cases hkey : key' = key
    · subst hkey
      simp [Engine.purged, h]
    · simp [Engine.purged, hkey]
  exact congrArg (fun tables => { s with tables := tables }) htables

/-- The first pass, over tables that are named once. -/
theorem purge_run (hkeys : keys.Nodup) (report : HistoryGcReport) (s : Engine) :
    ∃ report', keys.foldlM (purgeTable horizon) report s = .ok report' (s.purged horizon keys) ∧
      Purges horizon keys s report report' := by
  induction keys generalizing report s with
  | nil => exact ⟨report, rfl, by simp, by simp, by simp⟩
  | cons key keys ih =>
    obtain ⟨hkey, hkeys⟩ := List.nodup_cons.mp hkeys
    obtain ⟨first, hfirst, htouched, hpurged, htables⟩ := purgeTable_run horizon report key s
    obtain ⟨report', hrest, htouched', hpurged', htables'⟩ := ih hkeys first (s.purged horizon [key])
    have hother : ∀ key' ∈ keys, key' ≠ key := fun key' hmem hsame => hkey (hsame ▸ hmem)
    have hlost : ∀ key' ∈ keys, (s.purged horizon [key]).lost horizon key' = s.lost horizon key' :=
      fun key' hmem => lost_purged (hother key' hmem)
    refine ⟨report', ?_, ?_, ?_, ?_⟩
    · rw [List.foldlM_cons, bind_of_ok hfirst, hrest, purged_purged hkey]
    · have hfilter : keys.filter (fun key' => 0 < (s.purged horizon [key]).lost horizon key') =
          keys.filter fun key' => 0 < s.lost horizon key' :=
        List.filter_congr fun key' hmem => by rw [hlost key' hmem]
      rw [htouched', htouched, hfilter, List.append_assoc, ← List.filter_append]
      rfl
    · rw [hpurged', hpurged, List.map_congr_left hlost]
      simp [Nat.add_assoc]
    · have hfilter : keys.filter (s.purged horizon [key]).inMemory = keys.filter s.inMemory :=
        List.filter_congr fun key' hmem => inMemory_purged (hother key' hmem)
      have hnamed : (keys.filter s.inMemory).map
          (fun key' => (key', (s.purged horizon [key]).lost horizon key')) =
            (keys.filter s.inMemory).map fun key' => (key', s.lost horizon key') :=
        List.map_congr_left fun key' hmem => by rw [hlost key' (List.mem_of_mem_filter hmem)]
      rw [htables', htables, hfilter, hnamed, List.append_assoc, ← List.map_append,
        ← List.filter_append]
      rfl

end Purge

section Rebuild
variable {text : LitsText} {t t' : Table} {key : String} {i : ℕ}

/-- Every live row has a key, and the index of the primary key has just the live rows under their
keys. -/
structure Table.WellKeyed (text : LitsText) (t : Table) : Prop where
  keys : ∀ (i : ℕ) (entry : RowEntry), t.data.rows[i]? = some entry → entry.deleted = false →
    (liveKey text t.schema entry).isSome
  found : ∀ key i, t.liveAt key = some i ↔ t.keyAt text i = some key

/-- Every live row has a key of its own. -/
structure Table.KeysDistinct (text : LitsText) (t : Table) : Prop where
  keys : ∀ (i : ℕ) (entry : RowEntry), t.data.rows[i]? = some entry → entry.deleted = false →
    (liveKey text t.schema entry).isSome
  unique : ∀ i j key, t.keyAt text i = some key → t.keyAt text j = some key → i = j

theorem Table.WellKeyed.distinct (h : t.WellKeyed text) : t.KeysDistinct text where
  keys := h.keys
  unique i j key hi hj := by
    have hfound := (h.found key i).mpr hi
    exact Option.some.inj (hfound.symm.trans ((h.found key j).mpr hj))

theorem keyAt_congr (hpk : t'.schema.primaryKey = t.schema.primaryKey)
    (hrows : t'.data.rows = t.data.rows) : t'.keyAt text = t.keyAt text := by
  funext i
  rw [Table.keyAt, Table.keyAt, hrows]
  exact congrArg _ (funext fun entry => liveKey_congr hpk entry)

theorem Table.WellKeyed.sameRows (h : t.WellKeyed text) (hsame : t.SameRows t') :
    t'.WellKeyed text where
  keys := by
    rw [hsame.rows, hsame.schema]
    exact h.keys
  found key i := by
    rw [liveAt_congr hsame.rows hsame.pkIndex, keyAt_congr (by rw [hsame.schema]) hsame.rows]
    exact h.found key i

/-- The index has the keys of some of the rows, those that were entered. -/
structure Entered (text : LitsText) (t : Table) (slots : List (RowEntry × ℕ)) (t' : Table) : Prop where
  schema : t'.schema = t.schema
  rows : t'.data.rows = t.data.rows
  residency : t'.data.residency = t.data.residency
  indexes : t'.data.secondaryIndexes = t.data.secondaryIndexes
  keys : ∀ key i, t'.data.pkIndex key = some i ↔
    ∃ slot ∈ slots, slot.2 = i ∧ liveKey text t.schema slot.1 = some key

theorem pkIndex_putPk {d : TableData} (hi : i < d.rows.length) :
    (d.putPk key i).pkIndex = Function.update d.pkIndex key (some i) := by
  rw [TableData.putPk, dif_pos hi]

theorem sameRows_putPk {d : TableData} : (d.putPk key i).rows = d.rows ∧
    (d.putPk key i).residency = d.residency ∧
      (d.putPk key i).secondaryIndexes = d.secondaryIndexes := by
  unfold TableData.putPk
  split <;> exact ⟨rfl, rfl, rfl⟩

/-- A row whose key is not taken is entered. -/
theorem Entered.reindexRow {slots : List (RowEntry × ℕ)} {slot : RowEntry × ℕ}
    (h : Entered text t slots t') (hdistinct : t.KeysDistinct text)
    (hslots : ∀ other ∈ slots, t.data.rows[other.2]? = some other.1 ∧ other.2 ≠ slot.2)
    (hslot : t.data.rows[slot.2]? = some slot.1) :
    ∃ t'', reindexRow text slot t' = .ok () t'' ∧ Entered text t (slots ++ [slot]) t'' := by
  unfold Tables.reindexRow
  cases hdel : slot.1.deleted
  · obtain ⟨key, hkey⟩ := Option.isSome_iff_exists.mp (hdistinct.keys slot.2 slot.1 hslot hdel)
    have hpk : ∃ pk, extractPk t.schema slot.1.row = .ok pk ∧ text pk = key := by
      rw [liveKey, if_neg (by simp [hdel])] at hkey
      rcases hextract : extractPk t.schema slot.1.row with e | pk
      · rw [hextract] at hkey
        cases hkey
      · rw [hextract] at hkey
        exact ⟨pk, rfl, Option.some.inj hkey⟩
    obtain ⟨pk, hextract, rfl⟩ := hpk
    have hfree : t'.data.pkIndex (text pk) = none := by
      rcases htaken : t'.data.pkIndex (text pk) with _ | i
      · rfl
      · obtain ⟨other, hother, rfl, hsame⟩ := (h.keys _ _).mp htaken
        have hrow := hslots other hother
        refine absurd (hdistinct.unique other.2 slot.2 (text pk) ?_ ?_) hrow.2
        · exact keyAt_eq_some.mpr ⟨other.1, hrow.1, hsame⟩
        · exact keyAt_eq_some.mpr ⟨slot.1, hslot, hkey⟩
    have hlt : slot.2 < t'.data.rows.length := by
      rw [h.rows]
      exact (List.getElem?_eq_some_iff.mp hslot).1
    refine ⟨{ t' with data := t'.data.putPk (text pk) slot.2 }, ?_, ?_⟩
    · rw [if_neg Bool.false_ne_true, bind_of_ok (m := get) rfl, h.schema, hextract]
      simp only [hfree]
      rfl
    · have hsame := @sameRows_putPk (text pk) slot.2 t'.data
      refine ⟨h.schema, hsame.1.trans h.rows, hsame.2.1.trans h.residency,
        hsame.2.2.trans h.indexes, fun key i => ?_⟩
      rw [pkIndex_putPk hlt]
      by_cases hk : key = text pk
      · subst hk
        rw [Function.update_self]
        constructor
        · rintro ⟨⟩
          exact ⟨slot, by simp, rfl, hkey⟩
        · rintro ⟨other, hother, rfl, hsame⟩
          rcases List.mem_append.mp hother with hother | hother
          · have hentered := (h.keys _ _).mpr ⟨other, hother, rfl, hsame⟩
            rw [hfree] at hentered
            cases hentered
          · rw [List.mem_singleton.mp hother]
      · rw [Function.update_of_ne hk, h.keys]
        constructor
        · rintro ⟨other, hother, hi, hsame⟩
          exact ⟨other, List.mem_append_left _ hother, hi, hsame⟩
        · rintro ⟨other, hother, hi, hsame⟩
          rcases List.mem_append.mp hother with hother | hother
          · exact ⟨other, hother, hi, hsame⟩
          · rw [List.mem_singleton.mp hother, hkey] at hsame
            exact absurd (Option.some.inj hsame).symm hk
  · refine ⟨t', rfl, h.schema, h.rows, h.residency, h.indexes, fun key i => ?_⟩
    rw [h.keys]
    constructor
    · rintro ⟨other, hother, hi, hsame⟩
      exact ⟨other, List.mem_append_left _ hother, hi, hsame⟩
    · rintro ⟨other, hother, hi, hsame⟩
      rcases List.mem_append.mp hother with hother | hother
      · exact ⟨other, hother, hi, hsame⟩
      · rw [List.mem_singleton.mp hother, liveKey, if_pos hdel] at hsame
        cases hsame

theorem Entered.loop {slots : List (RowEntry × ℕ)} (h : Entered text t slots t')
    (hdistinct : t.KeysDistinct text) (rest : List (RowEntry × ℕ))
    (hall : ∀ slot ∈ slots ++ rest, t.data.rows[slot.2]? = some slot.1)
    (hnodup : ((slots ++ rest).map Prod.snd).Nodup) :
    ∃ t'', rest.foldlM (fun _ slot => Tables.reindexRow text slot) () t' = .ok () t'' ∧
      Entered text t (slots ++ rest) t'' := by
  induction rest generalizing slots t' with
  | nil => exact ⟨t', rfl, by rwa [List.append_nil]⟩
  | cons slot rest ih =>
    have hslots : ∀ other ∈ slots, t.data.rows[other.2]? = some other.1 ∧ other.2 ≠ slot.2 := by
      intro other hother
      refine ⟨hall other (List.mem_append_left _ hother), fun hsame => ?_⟩
      rw [List.map_append, List.map_cons] at hnodup
      refine (List.nodup_append.mp hnodup).2.2 other.2 (List.mem_map_of_mem hother) slot.2
        List.mem_cons_self hsame
    obtain ⟨t₁, hrun, hentered⟩ := h.reindexRow hdistinct hslots
      (hall slot (List.mem_append_right _ List.mem_cons_self))
    obtain ⟨t₂, hrest, hentered⟩ := ih hentered (by simpa using hall) (by simpa using hnodup)
    refine ⟨t₂, ?_, by simpa using hentered⟩
    rw [List.foldlM_cons, bind_of_ok hrun]
    exact hrest

/-- What a rebuilt table has of the one that was borrowed. -/
structure Rebuilt (t t' : Table) : Prop where
  definition : SameDefinition t t'
  counters : t'.schema.autoIncNext = t.schema.autoIncNext
  rows : t'.data.rows = t.data.rows

theorem Entered.rebuilt {slots : List (RowEntry × ℕ)} (h : Entered text t slots t') :
    Rebuilt t ⟨bumpTableVersion t'.schema, t'.data⟩ where
  definition := by
    rw [h.schema]
    exact ⟨rfl, rfl, rfl, rfl, h.residency⟩
  counters := by
    rw [h.schema]
    rfl
  rows := h.rows

/-- Once all rows are entered the index has just the live rows. -/
theorem Entered.wellKeyed (h : Entered text t t.data.rows.zipIdx t')
    (hdistinct : t.KeysDistinct text) :
    Table.WellKeyed text ⟨bumpTableVersion t'.schema, t'.data⟩ where
  keys i entry hentry hlive := by
    have hkey := @liveKey_congr text _ _ h.rebuilt.definition.primaryKey entry
    rw [hkey]
    exact hdistinct.keys i entry (h.rows ▸ hentry) hlive
  found key i := by
    have hindex : t'.data.pkIndex key = some i ↔ t.keyAt text i = some key := by
      rw [h.keys, keyAt_eq_some]
      constructor
      · rintro ⟨slot, hslot, rfl, hkey⟩
        exact ⟨slot.1, List.mem_zipIdx_iff_getElem?.mp hslot, hkey⟩
      · rintro ⟨entry, hentry, hkey⟩
        exact ⟨(entry, i), List.mem_zipIdx_iff_getElem?.mpr hentry, rfl, hkey⟩
    rw [keyAt_congr h.rebuilt.definition.primaryKey h.rows, Table.liveAt,
      Option.filter_eq_some_iff]
    constructor
    · exact fun hfound => hindex.mp hfound.1
    · intro hkey
      refine ⟨hindex.mpr hkey, ?_⟩
      obtain ⟨entry, hentry, hkey⟩ := keyAt_eq_some.mp hkey
      simp [h.rows, hentry, live_of_key hkey]

/-- Where every live row has a key of its own, the index is rebuilt. -/
theorem rebuildPkIndex_run (h : t.KeysDistinct text) :
    ∃ t', rebuildPkIndex text t = .ok () t' ∧ Rebuilt t t' ∧ t'.WellKeyed text := by
  have hstart : Entered text t [] { t with data := t.data.clearPk } := by
    refine ⟨rfl, rfl, rfl, rfl, fun key i => ?_⟩
    simp [TableData.clearPk]
  have hall : ∀ slot ∈ [] ++ t.data.rows.zipIdx, t.data.rows[slot.2]? = some slot.1 :=
    fun slot hslot => List.mem_zipIdx_iff_getElem?.mp hslot
  have hnodup : (([] ++ t.data.rows.zipIdx).map Prod.snd).Nodup := by
    rw [List.nil_append, List.zipIdx_map_snd]
    exact List.nodup_range'
  obtain ⟨t₁, hloop, hentered⟩ := hstart.loop h t.data.rows.zipIdx hall hnodup
  refine ⟨⟨bumpTableVersion t₁.schema, t₁.data⟩, ?_, hentered.rebuilt, hentered.wellKeyed h⟩
  unfold rebuildPkIndex
  rw [bind_of_ok (m := modify _) rfl, bind_of_ok (m := get) rfl]
  exact bind_of_ok hloop

theorem Rebuilt.trans {t'' : Table} (h : Rebuilt t t') (h' : Rebuilt t' t'') : Rebuilt t t'' :=
  ⟨h.definition.trans h'.definition, h'.counters.trans h.counters, h'.rows.trans h.rows⟩

theorem Rebuilt.of_sameRows (h : t.SameRows t') : Rebuilt t t' where
  definition := by
    refine ⟨?_, ?_, ?_, ?_, h.residency⟩ <;> rw [h.schema]
  counters := by rw [h.schema]
  rows := h.rows

theorem stable_rebuilt (t : Table) : Stable text (Rebuilt t) where
  rebuild _ h := h.trans (.of_sameRows Table.sameRows_rebuild)

/-- Whether the index can be rebuilt or not, the rows stay. -/
theorem preserves_rebuilt (t : Table) : Preserves (Rebuilt t) (rebuildPkIndex text) := by
  have hrow : ∀ slot, Preserves (Rebuilt t) (Tables.reindexRow text slot) := by
    intro slot t' h
    unfold Tables.reindexRow
    split
    · exact h
    · rw [bind_of_ok (m := get) rfl]
      rcases extractPk t'.schema slot.1.row with e | pk
      · exact h
      · have hsame := @sameRows_putPk (text pk) slot.2 t'.data
        have hput : Rebuilt t { t' with data := t'.data.putPk (text pk) slot.2 } :=
          h.trans ⟨⟨rfl, rfl, rfl, rfl, hsame.2.1⟩, rfl, hsame.1⟩
        dsimp only
        rw [bind_of_ok (m := set _) rfl]
        split
        · exact hput
        · exact hput
  unfold rebuildPkIndex
  refine Preserves.bind (preserves_modify fun t' h =>
    h.trans ⟨⟨rfl, rfl, rfl, rfl, rfl⟩, rfl, rfl⟩) fun _ => ?_
  refine Preserves.bind (fun t' h => h) fun t₁ => ?_
  refine Preserves.bind (Preserves.foldlM (fun _ slot => hrow slot) _ _) fun _ => ?_
  exact preserves_modify fun t' h => h.trans ⟨⟨rfl, rfl, rfl, rfl, rfl⟩, rfl, rfl⟩

theorem Table.KeysDistinct.rebuilt (h : t.KeysDistinct text) (hsame : Rebuilt t t') :
    t'.KeysDistinct text where
  keys i entry hentry hlive := by
    rw [liveKey_congr hsame.definition.primaryKey]
    exact h.keys i entry (hsame.rows ▸ hentry) hlive
  unique := by
    rw [keyAt_congr hsame.definition.primaryKey hsame.rows]
    exact h.unique

end Rebuild

section Refresh
variable {text : LitsText} {io : Io} {horizon : Option ℕ} {s s' : Engine} {t t' : Table}
  {key key' : TableKey} {keys : List TableKey} {M : Table → Prop}

theorem frame_refresh (hM : Stable text M) (h : key ≠ key') :
    Preserves (Engine.Holding text key M) (refreshTable text io key') :=
  (frame_onTable h _).bind fun _ => preserves_persistTable hM

/-- What rebuilding the index makes of a table is there afterwards. -/
theorem holding_refresh (hM : Stable text M) (ht : s.tableOf text key = some t)
    (hfinal : M (final (rebuildPkIndex text t))) :
    (final (refreshTable text io key s)).Holding text key M := by
  apply holding_of_final ht (fun _ => preserves_persistTable hM) hfinal
  have hsame := @preserves_rebuilt text t t (.of_sameRows (.refl t))
  exact hsame.definition.residency.trans (resident_tableOf ht)

theorem preserves_refresh (hM : Stable text M) (hrebuild : Preserves M (rebuildPkIndex text)) :
    Preserves (Engine.Holding text key M) (refreshTable text io key') := by
  by_cases hkey : key = key'
  · subst hkey
    rintro s ⟨t, ht, hMt⟩
    exact holding_refresh hM ht (hrebuild t hMt)
  · exact frame_refresh hM hkey

/-- The second pass leaves the rows. -/
theorem holding_pass (ht : s.tableOf text key = some t) (touched : List TableKey)
    (first : Option String) : (final (touched.foldlM (fun first key =>
      keepError first (refreshTable text io key)) first s)).Holding text key (Rebuilt t) := by
  apply Preserves.foldlM fun first key' => preserves_keepError
    (preserves_refresh (stable_rebuilt t) (preserves_rebuilt t)) first
  exact ⟨t, ht, .of_sameRows (.refl t)⟩

/-- A table that has been given its index back. -/
structure Refreshed (text : LitsText) (t t' : Table) : Prop where
  rebuilt : Rebuilt t t'
  wellKeyed : t'.WellKeyed text

theorem stable_refreshed (t : Table) : Stable text (Refreshed text t) where
  rebuild _ h := ⟨(stable_rebuilt t).rebuild _ h.rebuilt, h.wellKeyed.sameRows Table.sameRows_rebuild⟩

theorem final_rebuildPkIndex (h : t.KeysDistinct text) :
    Refreshed text t (final (rebuildPkIndex text t)) := by
  obtain ⟨t', hrun, hsame, hkeyed⟩ := rebuildPkIndex_run h
  rw [hrun]
  exact ⟨hsame, hkeyed⟩

theorem preserves_refreshed (t : Table) : Preserves (Refreshed text t) (rebuildPkIndex text) := by
  intro t' h
  have hfinal := final_rebuildPkIndex h.wellKeyed.distinct
  exact ⟨h.rebuilt.trans hfinal.rebuilt, hfinal.wellKeyed⟩

theorem keepError_run {σ : Type} (first : Option String) (m : EStateM String σ Unit) (s : σ) :
    ∃ first', keepError first m s = .ok first' (final (m s)) := by
  unfold keepError
  rcases m s with ⟨_, s'⟩ | ⟨e, s'⟩
  · exact ⟨first, rfl⟩
  · exact ⟨first.or (some e), rfl⟩

/-- A table that the second pass comes to has its index afterwards. -/
theorem refreshed_pass (hs : s.Holding text key (Rebuilt t)) (hdistinct : t.KeysDistinct text)
    {touched : List TableKey} (hkey : key ∈ touched) (first : Option String) :
    (final (touched.foldlM (fun first key => keepError first (refreshTable text io key))
      first s)).Holding text key (Refreshed text t) := by
  induction touched generalizing s first with
  | nil => exact absurd hkey List.not_mem_nil
  | cons first' rest ih =>
    obtain ⟨error, hstep⟩ := keepError_run first (refreshTable text io first') s
    rw [List.foldlM_cons, bind_of_ok hstep]
    by_cases hfirst : key = first'
    · subst hfirst
      apply Preserves.foldlM fun first key' => preserves_keepError
        (preserves_refresh (stable_refreshed t) (preserves_refreshed t)) first
      obtain ⟨t₁, ht₁, hsame⟩ := hs
      apply holding_refresh (stable_refreshed t) ht₁
      have hfinal := final_rebuildPkIndex (hdistinct.rebuilt hsame)
      exact ⟨hsame.trans hfinal.rebuilt, hfinal.wellKeyed⟩
    · apply ih _ ((List.mem_cons.mp hkey).resolve_left hfirst)
      exact preserves_refresh (stable_rebuilt t) (preserves_rebuilt t) s hs

/-- The engine can be written, and every live row of some of its tables has a key of its own. -/
def Engine.Refreshable (text : LitsText) (keys : List TableKey) (s : Engine) : Prop :=
  s.Writable ∧ ∀ key ∈ keys, s.Holding text key (Table.KeysDistinct text)

theorem stable_distinct : Stable text (Table.KeysDistinct text) where
  rebuild _ h := h.rebuilt (.of_sameRows Table.sameRows_rebuild)

/-- Nothing goes wrong in the second pass. -/
theorem succeeds_refresh (hkey : key ∈ keys) :
    Succeeds (Engine.Refreshable text keys) (refreshTable text {} key) := by
  rintro s ⟨hwritable, hdistinct⟩
  obtain ⟨t, ht, hkeys⟩ := hdistinct key hkey
  obtain ⟨t', hrun, -⟩ := rebuildPkIndex_run hkeys
  obtain ⟨s₁, htable, hs₁⟩ := onTable_of_ok hwritable ht hrun
  obtain ⟨_, s₂, hpersist, hs₂⟩ := @succeeds_persistTable text _ _ List.mem_cons_self s₁ hs₁
  have hrefresh : refreshTable text {} key s = .ok () s₂ := (bind_of_ok htable).trans hpersist
  refine ⟨(), s₂, hrefresh, hs₂.1, fun key' hkey' => ?_⟩
  have hkeep : Preserves (Table.KeysDistinct text) (rebuildPkIndex text) := by
    intro t h
    exact h.rebuilt (final_rebuildPkIndex h).rebuilt
  have hfinal := @preserves_refresh text {} key' key _ stable_distinct hkeep s (hdistinct key' hkey')
  rwa [hrefresh] at hfinal

theorem Succeeds.keepError {σ : Type} {P : σ → Prop} {m : EStateM String σ Unit}
    (h : Succeeds P m) {s : σ} (hs : P s) :
    ∃ s', Tables.keepError none m s = .ok none s' ∧ P s' := by
  obtain ⟨_, s', hrun, hs'⟩ := h s hs
  refine ⟨s', ?_, hs'⟩
  unfold Tables.keepError
  rw [hrun]

theorem pass_succeeds {touched : List TableKey} (htouched : touched ⊆ keys)
    (hs : s.Refreshable text keys) : ∃ s', touched.foldlM
      (fun first key => Tables.keepError first (refreshTable text {} key)) none s = .ok none s' := by
  induction touched generalizing s with
  | nil => exact ⟨s, rfl⟩
  | cons key touched ih =>
    obtain ⟨hkey, htouched⟩ := List.cons_subset.mp htouched
    obtain ⟨s₁, hrun, hs₁⟩ := Succeeds.keepError (succeeds_refresh hkey) hs
    rw [List.foldlM_cons, bind_of_ok hrun]
    exact ih htouched hs₁

end Refresh

section Collect
variable {text : LitsText} {io : Io} {horizon : Option ℕ} {s s' : Engine} {t t' : Table}
  {key : TableKey} {keys : List TableKey}

/-- A table that is in memory. -/
def Engine.Resident (s : Engine) (key : TableKey) : Prop :=
  ∃ d, s.tables key = some d ∧ d.residency = .resident

/-- What history GC leaves of a table: the rows that it keeps, if the table is in memory. -/
structure Collected (horizon : Option ℕ) (inMemory : Prop) (t t' : Table) : Prop where
  definition : SameDefinition t t'
  counters : t'.schema.autoIncNext = t.schema.autoIncNext
  rows : inMemory → t'.data.rows = t.data.rows.filter (retained horizon)
  streamed : ¬inMemory → t'.data.rows = t.data.rows

theorem isResident_iff {d : TableData} : d.isResident = true ↔ d.residency = .resident := by
  unfold TableData.isResident
  split <;> simp_all

theorem tableOf_purged (ht : s.tableOf text key = some t) :
    (key ∈ keys ∧ s.Resident key ∧ (s.purged horizon keys).tableOf text key =
      some ⟨t.schema, t.data.retain horizon⟩) ∨
    ¬(key ∈ keys ∧ s.Resident key) ∧ (s.purged horizon keys).tableOf text key = some t := by
  obtain ⟨schema, hschema, h⟩ := Option.bind_eq_some_iff.mp ht
  obtain ⟨d, hd, h⟩ := Option.bind_eq_some_iff.mp h
  have hget : ∀ d', (s.purged horizon keys).tables key = some d' →
      (s.purged horizon keys).tableOf text key =
        (Engine.materialize text (some schema) d').toOption.map fun d => ⟨schema, d⟩ := by
    intro d' hd'
    rw [Engine.tableOf, hd']
    change ((s.getSchema key).toOption.bind _) = _
    rw [hschema]
    rfl
  by_cases hcollects : key ∈ keys ∧ s.Resident key
  · obtain ⟨hkey, d', hd', hres⟩ := hcollects
    cases hd.symm.trans hd'
    refine .inl ⟨hkey, ⟨d, hd, hres⟩, ?_⟩
    rw [materialize_resident hres] at h
    cases h
    have hcollected : d.collected horizon = d.retain horizon := if_pos (isResident_iff.mpr hres)
    rw [hget (d.retain horizon) (by simp [Engine.purged, hkey, hd, hcollected]),
      materialize_resident (residency_retain.trans hres)]
    rfl
  · refine .inr ⟨hcollects, ?_⟩
    rw [hget d, h]
    have hsame : key ∈ keys → d.collected horizon = d := by
      intro hkey
      apply if_neg
      intro hres
      exact hcollects ⟨hkey, d, hd, isResident_iff.mp hres⟩
    by_cases hkey : key ∈ keys
    · simp [Engine.purged, hkey, hd, hsame hkey]
    · simp [Engine.purged, hkey, hd]

/-- The rows that are kept have the keys that they had. -/
theorem Table.KeysDistinct.retain (h : t.KeysDistinct text) :
    Table.KeysDistinct text ⟨t.schema, t.data.retain horizon⟩ := by
  obtain ⟨ρ, hmono, -, hrows, -⟩ := exists_filter_positions (retained horizon) t.data.rows
  have hrow : ∀ i, (t.data.retain horizon).rows[i]? = t.data.rows[ρ i]? := by
    intro i
    rw [rows_retain, hrows]
  have hkey : ∀ i, Table.keyAt text ⟨t.schema, t.data.retain horizon⟩ i = t.keyAt text (ρ i) := by
    intro i
    rw [Table.keyAt, hrow]
    rfl
  constructor
  · intro i entry hentry hlive
    exact h.keys (ρ i) entry ((hrow i).symm.trans hentry) hlive
  · intro i j key hi hj
    rw [hkey] at hi hj
    exact hmono.injective (h.unique _ _ _ hi hj)

/-- Nothing tells the table that is left from the one before. -/
theorem alike_of_collected (h : t.WellKeyed text) (h' : t'.WellKeyed text) {inMemory : Prop}
    (hcollected : Collected horizon inMemory t t') (hindexes : t.schema.compatIndexes = []) :
    ∃ ρ, Alike ρ t t' := by
  have hpositions : ∃ ρ : ℕ → ℕ, StrictMono ρ ∧
      (∀ n, ρ (t'.data.rows.length + n) = t.data.rows.length + n) ∧
      (∀ i, t.data.rows[ρ i]? = t'.data.rows[i]?) ∧
      ∀ j ∉ Set.range ρ, ∀ entry ∈ t.data.rows[j]?, entry.deleted = true := by
    by_cases hmemory : inMemory
    · rw [hcollected.rows hmemory]
      obtain ⟨ρ, hmono, hbeyond, hrows, hpassed⟩ :=
        exists_filter_positions (retained horizon) t.data.rows
      exact ⟨ρ, hmono, hbeyond, hrows, fun j hj entry hentry =>
        deleted_of_not_retained (hpassed j hj entry hentry)⟩
    · rw [hcollected.streamed hmemory]
      exact ⟨id, strictMono_id, fun _ => rfl, fun _ => rfl, fun j hj => absurd ⟨j, rfl⟩ hj⟩
  obtain ⟨ρ, hmono, hbeyond, hrows, hpassed⟩ := hpositions
  have hsame := hcollected.definition
  have hkeyAt : ∀ i, t'.keyAt text i = t.keyAt text (ρ i) := by
    intro i
    rw [Table.keyAt, Table.keyAt, hrows]
    exact congrArg _ (funext fun entry => liveKey_congr hsame.primaryKey entry)
  refine ⟨ρ, hsame.columns, hsame.primaryKey, hsame.defaults, hcollected.counters, hindexes,
    hsame.indexes.trans hindexes, hmono, hbeyond, fun i => by rw [hrows], hpassed, fun key => ?_⟩
  ext j
  rw [h.found, Option.map_eq_some_iff]
  constructor
  · intro hkey
    obtain ⟨entry, hentry, hlive⟩ := keyAt_eq_some.mp hkey
    obtain ⟨i, rfl⟩ : j ∈ Set.range ρ := by
      by_contra hj
      cases (live_of_key hlive).symm.trans (hpassed j hj entry hentry)
    exact ⟨i, (h'.found key i).mpr ((hkeyAt i).trans hkey), rfl⟩
  · rintro ⟨i, hi, rfl⟩
    exact (hkeyAt i).symm.trans ((h'.found key i).mp hi)

/-- What the first pass leaves is there at the end, whatever comes of the second one. -/
theorem historyGc_final (hkeys : keys.Nodup) : ∃ report, Purges horizon keys s {} report ∧
    final (maintenanceHistoryGc text io keys horizon s) =
      final (report.touched.foldlM (fun first key => keepError first (refreshTable text io key))
        none (s.purged horizon keys)) := by
  obtain ⟨report, hrun, hpurges⟩ := @purge_run horizon keys hkeys {} s
  refine ⟨report, hpurges, ?_⟩
  unfold maintenanceHistoryGc
  rw [bind_of_ok hrun]
  rcases hpass : report.touched.foldlM (fun first key => keepError first (refreshTable text io key))
    none (s.purged horizon keys) with ⟨_ | e, s'⟩ | ⟨e, s'⟩
  · rw [bind_of_ok hpass]
    rfl
  · rw [bind_of_ok hpass]
    rfl
  · rw [bind_of_error hpass]
    rfl

/-- The rows of a table after history GC, whether it succeeds or not. -/
theorem historyGc_collected (hkeys : keys.Nodup) (ht : s.tableOf text key = some t) :
    (final (maintenanceHistoryGc text io keys horizon s)).Holding text key
      (Collected horizon (key ∈ keys ∧ s.Resident key) t) := by
  obtain ⟨report, -, hfinal⟩ := @historyGc_final text io horizon s keys hkeys
  rw [hfinal]
  rcases @tableOf_purged text horizon s t key keys ht with ⟨hkey, hres, hpurged⟩ | ⟨hnot, hpurged⟩
  · obtain ⟨t', ht', hsame⟩ := @holding_pass text io _ _ key hpurged report.touched none
    have hdata := hsame.definition
    refine ⟨t', ht', ⟨hdata.columns, hdata.primaryKey, hdata.defaults, hdata.indexes,
      hdata.residency.trans residency_retain⟩, hsame.counters, fun _ => ?_,
      fun hnot => absurd ⟨hkey, hres⟩ hnot⟩
    exact hsame.rows.trans rows_retain
  · obtain ⟨t', ht', hsame⟩ := @holding_pass text io _ _ key hpurged report.touched none
    exact ⟨t', ht', hsame.definition, hsame.counters, fun hin => absurd hin hnot, fun _ => hsame.rows⟩

/-- The tables by name, each of them once. -/
structure Engine.Lists (s : Engine) (keys : List TableKey) : Prop where
  nodup : keys.Nodup
  complete : ∀ key, (s.tables key).isSome → key ∈ keys

/-- The engine can be written, and its tables have a schema and find their rows by key. -/
structure Engine.WellKept (text : LitsText) (s : Engine) : Prop where
  writable : s.Writable
  known : ∀ key, s.Resident key → ∃ t, s.tableOf text key = some t
  keyed : ∀ key t, s.tableOf text key = some t → t.WellKeyed text

/-- A table before and after history GC: the second one has no other rows than it should, finds
them by key and answers every statement as the first one does, if there are no indexes. -/
structure ServesAlike (ext : Externals) (horizon : Option ℕ) (inMemory : Prop) (key : TableKey)
    (t t' : Table) : Prop where
  collected : Collected horizon inMemory t t'
  wellKeyed : t'.WellKeyed ext.text
  answers : t.schema.compatIndexes = [] → ∀ runs runs' : List (Stamp × DataStatement),
    List.Forall₂ (fun a b => b.1.ext = a.1.ext ∧ b.2 = a.2 ∧ a.2.Portable) runs runs' →
      served key runs' t' = served key runs t

theorem lost_pos (h : s.lost horizon key ≠ 0) : s.Resident key := by
  unfold Engine.lost at h
  rcases hd : s.tables key with _ | d
  · simp [hd] at h
  · refine ⟨d, hd, ?_⟩
    by_contra hres
    have hsame : d.collected horizon = d := if_neg (mt isResident_iff.mp hres)
    simp [hd, hsame] at h

theorem refreshable_purged (hs : s.WellKept text) :
    (s.purged horizon keys).Refreshable text (keys.filter fun key => 0 < s.lost horizon key) := by
  refine ⟨⟨hs.writable.unlocked, hs.writable.known⟩, fun key hkey => ?_⟩
  obtain ⟨-, hlost⟩ := List.mem_filter.mp hkey
  obtain ⟨t, ht⟩ := hs.known key (lost_pos (Nat.pos_iff_ne_zero.mp (of_decide_eq_true hlost)))
  have hdistinct := (hs.keyed key t ht).distinct
  rcases @tableOf_purged text horizon s t key keys ht with ⟨-, -, hpurged⟩ | ⟨-, hpurged⟩
  · exact ⟨_, hpurged, hdistinct.retain⟩
  · exact ⟨t, hpurged, hdistinct⟩

/-- A table finds its rows by key after history GC, in whatever order the tables are taken. -/
theorem historyGc_wellKeyed (hkeys : keys.Nodup) (ht : s.tableOf text key = some t)
    (hkeyed : t.WellKeyed text) :
    (final (maintenanceHistoryGc text io keys horizon s)).Holding text key (Table.WellKeyed text) := by
  obtain ⟨report, hpurges, hfinal⟩ := @historyGc_final text io horizon s keys hkeys
  rw [hfinal]
  have hkept : (s.purged horizon keys).tableOf text key = some t →
      (final (report.touched.foldlM (fun first key => keepError first (refreshTable text io key))
        none (s.purged horizon keys))).Holding text key (Table.WellKeyed text) := by
    intro hpurged
    have hwell : Stable text (Table.WellKeyed text) :=
      ⟨fun _ h => h.sameRows Table.sameRows_rebuild⟩
    apply Preserves.foldlM fun first key' => preserves_keepError
      (preserves_refresh hwell fun t h => (final_rebuildPkIndex h.distinct).wellKeyed) first
    exact ⟨t, hpurged, hkeyed⟩
  rcases @tableOf_purged text horizon s t key keys ht with ⟨hkey, ⟨d, hd, hres⟩, hpurged⟩ | ⟨-, hpurged⟩
  · have hdata : t.data = d := by
      obtain ⟨schema, -, h⟩ := Option.bind_eq_some_iff.mp ht
      obtain ⟨d', hd', h⟩ := Option.bind_eq_some_iff.mp h
      cases hd.symm.trans hd'
      rw [materialize_resident hres] at h
      cases h
      rfl
    by_cases hlost : 0 < s.lost horizon key
    · have htouched : key ∈ report.touched := by
        rw [hpurges.touched]
        exact List.mem_append_right _ (List.mem_filter.mpr ⟨hkey, decide_eq_true hlost⟩)
      obtain ⟨t', ht', hrefreshed⟩ := @refreshed_pass text io _ _ key
        ⟨_, hpurged, .of_sameRows (.refl _)⟩ hkeyed.distinct.retain _ htouched none
      exact ⟨t', ht', hrefreshed.wellKeyed⟩
    · apply hkept
      have hsame : t.data.retain horizon = t.data := by
        apply retain_of_none
        have hcollected : d.collected horizon = d.retain horizon :=
          if_pos (isResident_iff.mpr hres)
        simpa [Engine.lost, hd, hcollected, hdata] using hlost
      rw [hpurged, hsame]
  · exact hkept hpurged

/-- Whatever the order of the tables, history GC succeeds where the disk takes what is written. It
reports each table in memory with the rows that it loses, and touches those that lose any. No run
of portable statements tells a table from what it was. -/
theorem history_gc_serves {ext : Externals} (hs : s.WellKept ext.text) (hkeys : s.Lists keys)
    (horizon : Option ℕ) : ∃ report s',
    maintenanceHistoryGc ext.text {} keys horizon s = .ok report s' ∧
      report.touched = keys.filter (fun key => 0 < s.lost horizon key) ∧
        report.rowsPurged = (keys.map (s.lost horizon)).sum ∧
        report.tables = (keys.filter s.inMemory).map (fun key => (key, s.lost horizon key)) ∧
          ∀ key t, s.tableOf ext.text key = some t → s'.Holding ext.text key
            (ServesAlike ext horizon (s.Resident key) key t) := by
  obtain ⟨report, hrun, hpurges⟩ := @purge_run horizon keys hkeys.nodup {} s
  have htouched : report.touched = keys.filter fun key => 0 < s.lost horizon key :=
    hpurges.touched
  obtain ⟨s', hpass⟩ := pass_succeeds (List.Subset.refl _)
    (@refreshable_purged ext.text horizon s keys hs)
  have hgc : maintenanceHistoryGc ext.text {} keys horizon s = .ok report s' := by
    unfold maintenanceHistoryGc
    rw [bind_of_ok hrun, htouched, bind_of_ok hpass]
    rfl
  refine ⟨report, s', hgc, htouched, hpurges.rowsPurged.trans (Nat.zero_add _), hpurges.tables,
    fun key t ht => ?_⟩
  have hcollected := @historyGc_collected ext.text {} horizon s t key keys hkeys.nodup ht
  have hwell := @historyGc_wellKeyed ext.text {} horizon s t key keys hkeys.nodup ht
    (hs.keyed key t ht)
  rw [hgc] at hcollected hwell
  obtain ⟨t', ht', hcollected⟩ := hcollected
  obtain ⟨_, hsame, hwell⟩ := hwell
  cases hsame.symm.trans ht'
  have hcollected : Collected horizon (s.Resident key) t t' := by
    refine ⟨hcollected.definition, hcollected.counters, fun hres => ?_, fun hnot => ?_⟩
    · obtain ⟨d, hd, -⟩ := id hres
      exact hcollected.rows ⟨hkeys.complete key (by rw [hd]; rfl), hres⟩
    · exact hcollected.streamed fun hin => hnot hin.2
  refine ⟨t', ht', hcollected, hwell, fun hindexes runs runs' hruns => ?_⟩
  obtain ⟨ρ, halike⟩ := alike_of_collected (hs.keyed key t ht) hwell hcollected hindexes
  exact served_alike hruns halike

end Collect

section Sample

/-- Order 1 was deleted at time 5, and order 2 is there since time 6. -/
def ordersTable : Table where
  schema := sampleSchema
  data := {
    rows := [⟨sampleRow 1, 1, 1, true, 5⟩, ⟨sampleRow 2, 2, 1, false, 6⟩]
    pkIndex := Function.update (fun _ => none) (sampleText [.u64 2]) (some 1)
    pk_lt := by
      intro key i hi
      by_cases hkey : key = sampleText [.u64 2]
      · rw [hkey, Function.update_self] at hi
        cases hi
        decide
      · rw [Function.update_of_ne hkey] at hi
        cases hi }

def ordersEngine : Engine :=
  { sampleEngine with tables := Function.update (fun _ => none) sampleKey (some ordersTable.data) }

theorem ordersTable_wellKeyed : ordersTable.WellKeyed sampleText where
  keys i entry hentry hlive := by
    rcases i with _ | _ | i
    · obtain rfl := Option.some.inj hentry
      cases hlive
    · obtain rfl := Option.some.inj hentry
      rfl
    · cases hentry
  found key i := by
    have hindex : ordersTable.liveAt key = some i ↔ key = sampleText [.u64 2] ∧ i = 1 := by
      rw [Table.liveAt, Option.filter_eq_some_iff]
      by_cases hkey : key = sampleText [.u64 2]
      · subst hkey
        constructor
        · rintro ⟨hi, -⟩
          exact ⟨rfl, (Option.some.inj hi).symm⟩
        · rintro ⟨-, rfl⟩
          exact ⟨rfl, rfl⟩
      · simp [ordersTable, hkey]
    rw [hindex]
    rcases i with _ | _ | i
    · simp [Table.keyAt, ordersTable, liveKey]
    · have hat : ordersTable.keyAt sampleText 1 = some (sampleText [.u64 2]) := rfl
      rw [hat, Option.some_inj]
      exact ⟨fun h => h.1.symm, fun h => ⟨h.symm, rfl⟩⟩
    · simp [Table.keyAt, ordersTable]

theorem tableOf_ordersEngine {key : TableKey} {t : Table}
    (h : ordersEngine.tableOf sampleText key = some t) : t = ordersTable := by
  by_cases hkey : key = sampleKey
  · subst hkey
    exact (Option.some.inj h).symm
  · obtain ⟨schema, -, h⟩ := Option.bind_eq_some_iff.mp h
    obtain ⟨d, hd, -⟩ := Option.bind_eq_some_iff.mp h
    simp [ordersEngine, hkey] at hd

theorem ordersEngine_wellKept : ordersEngine.WellKept sampleText where
  writable := ⟨fun _ => rfl, fun _ hkey => absurd hkey List.not_mem_nil⟩
  known key hres := by
    obtain ⟨d, hd, -⟩ := hres
    by_cases hkey : key = sampleKey
    · subst hkey
      exact ⟨ordersTable, rfl⟩
    · simp [ordersEngine, hkey] at hd
  keyed key t ht := tableOf_ordersEngine ht ▸ ordersTable_wellKeyed

theorem ordersEngine_lists : ordersEngine.Lists [sampleKey] where
  nodup := List.nodup_singleton _
  complete key hkey := by
    by_contra hne
    rw [List.mem_singleton] at hne
    simp [ordersEngine, hne] at hkey

/-- The deleted order goes. -/
theorem history_gc_serves_sample : ∃ report s',
    maintenanceHistoryGc sampleText {} [sampleKey] (some 5) ordersEngine = .ok report s' ∧
      report.touched = [sampleKey] ∧ report.rowsPurged = 1 ∧ report.tables = [(sampleKey, 1)] ∧
        s'.Holding sampleText sampleKey
          (ServesAlike sampleExternals (some 5) (ordersEngine.Resident sampleKey) sampleKey
            ordersTable) := by
  obtain ⟨report, s', hgc, htouched, hpurged, htables, hserves⟩ :=
    @history_gc_serves ordersEngine [sampleKey] sampleExternals ordersEngine_wellKept
      ordersEngine_lists (some 5)
  have hlost : ordersEngine.lost (some 5) sampleKey = 1 := by decide
  have hmemory : ordersEngine.inMemory sampleKey = true := by decide
  refine ⟨report, s', hgc, ?_, ?_, ?_, ?_⟩
  · simpa [hlost] using htouched
  · simpa [hlost] using hpurged
  · simpa [hlost, hmemory] using htables
  · exact hserves sampleKey ordersTable rfl

example : ([sampleKey].map (ordersEngine.lost (some 4))).sum = 0 := by decide

end Sample

end SkeinDB.Tables
