import SkeinDB.Values.Health

/-!
# Importing entries

`import_transfer_entries` and `load_store` push entries first and then recompute the
delta metadata: the depth of every chain, with a memo and a set of ids under visit
that finds cycles, and a materialization of every delta without skip patches. Both
operations change the store in place, so a failing call also returns a store.
-/
namespace SkeinDB.Values
open SkeinDB.Codec SkeinDB.Format SkeinDB.Delta

abbrev Memo := ValueId → Option ℕ

namespace ValueStore

def insertLoadedEntry (s : ValueStore) (id : ValueId) (entry : ValueEntry) :
    Except ValueStoreError ValueStore :=
  if id ∈ s.index then .error .duplicateValueId else .ok (s.pushEntry id entry)

/-- The depth of an id's chain. The ids under visit are those of the enclosing calls. -/
def rebuildLoadedDeltaDepth (s : ValueStore) :
    ℕ → ValueId → Memo → List ValueId → Option (Except ValueStoreError (ℕ × Memo))
  | 0, _, _, _ => none
  | fuel + 1, id, memo, visiting =>
    match memo id with
    | some depth => some (.ok (depth, memo))
    | none =>
      if id ∈ visiting then some (.error .invalidDelta)
      else match s.entryById id with
        | none => some (.error .notFound)
        | some entry =>
          if entry.kind ≠ .delta then some (.ok (0, Function.update memo id (some 0)))
          else match entry.delta with
            | none => some (.error .invalidDelta)
            | some delta =>
              if (s.entryById delta.base).isNone then some (.error .missingDeltaBase)
              else match rebuildLoadedDeltaDepth s fuel delta.base memo (id :: visiting) with
                | none => none
                | some (.error e) => some (.error e)
                | some (.ok (baseDepth, memo)) =>
                  let depth := min (baseDepth + 1) usizeMax
                  some (.ok (depth, Function.update memo id (some depth)))

/-- Store the depth of one id and drop its skip patches. -/
def resetDelta (s : ValueStore) (id : ValueId) (depth : ℕ) : ValueStore :=
  match s.index.lookup id with
  | none => s
  | some idx =>
    match s.entries[idx]? with
    | none => s
    | some entry =>
      match entry.delta with
      | none => s
      | some delta =>
        { s with
          entries := s.entries.set idx
            { entry with delta := some { delta with depth := depth, skip := [] } } }

/-- The first loop of `recompute_loaded_delta_metadata`. -/
def depthLoop : ValueStore → List ValueId → Memo →
    Option (Except ValueStoreError Unit × ValueStore)
  | s, [], _ => some (.ok (), s)
  | s, id :: ids, memo =>
    match s.rebuildLoadedDeltaDepth (s.entries.length + 1) id memo [] with
    | none => none
    | some (.error e) => some (.error e, s)
    | some (.ok (depth, memo)) => depthLoop (s.resetDelta id depth) ids memo

/-- The second loop: every delta must materialize without skip patches. -/
def checkLoop (env : Env) (s : ValueStore) : List ValueId → Option (Except ValueStoreError Unit)
  | [] => some (.ok ())
  | id :: ids =>
    match s.entryById id with
    | none => checkLoop env s ids
    | some entry =>
      if entry.kind ≠ .delta then checkLoop env s ids
      else match entry.delta with
        | none => some (.error .invalidDelta)
        | some _ =>
          match materializeInternal env s id false with
          | none => none
          | some (.error e) => some (.error e)
          | some (.ok _) => checkLoop env s ids

def recomputeLoadedDeltaMetadata (env : Env) (s : ValueStore) :
    Option (Except ValueStoreError Unit × ValueStore) :=
  match s.depthLoop s.entryIds (fun _ => none) with
  | none => none
  | some (.error e, s) => some (.error e, s)
  | some (.ok (), s) =>
    match s.checkLoop env s.entryIds with
    | none => none
    | some (.error e) => some (.error e, s)
    | some (.ok ()) =>
      some (.ok (), if s.config.enableLearnedIndex then s.refreshLearnedIndex env else s)

/-- The insertions of an import: ids that are present are skipped. -/
def importLoop : ValueStore → ℕ → List ValueSegmentEntry → Except ValueStoreError ℕ × ValueStore
  | s, inserted, [] => (.ok inserted, s)
  | s, inserted, e :: es =>
    if e.id ∈ s.index then importLoop s inserted es
    else match s.insertLoadedEntry e.id e.entry with
      | .error err => (.error err, s)
      | .ok s => importLoop s (min (inserted + 1) usizeMax) es

def importTransferEntries (env : Env) (s : ValueStore) (entries : List ValueSegmentEntry) :
    Option (Except ValueStoreError ℕ × ValueStore) :=
  match s.importLoop 0 entries with
  | (.error e, s) => some (.error e, s)
  | (.ok inserted, s) =>
    if 0 < inserted then
      match s.recomputeLoadedDeltaMetadata env with
      | none => none
      | some (.error e, s) => some (.error e, s)
      | some (.ok (), s) => some (.ok inserted, s)
    else some (.ok inserted, s)

/-- The insertions of a load: a repeated id is an error. -/
def loadLoop (s : ValueStore) (entries : List ValueSegmentEntry) :
    Except ValueStoreError ValueStore :=
  entries.foldlM (fun s e => s.insertLoadedEntry e.id e.entry) s

/-- `load_store` on the entries of a segment. A failing call drops its store. -/
def loadStore (env : Env) (config : ValueStoreConfig) (entries : List ValueSegmentEntry) :
    Option (Except ValueStoreError ValueStore) :=
  match (ValueStore.new config).loadLoop entries with
  | .error e => some (.error e)
  | .ok s =>
    match s.recomputeLoadedDeltaMetadata env with
    | none => none
    | some (.error e, _) => some (.error e)
    | some (.ok (), s) => some (.ok s)

end ValueStore

section Specs
variable {env : Env} {s t : ValueStore}

/-- The entry without the metadata that a load recomputes. -/
def ValueEntry.plain (entry : ValueEntry) : ValueEntry :=
  { entry with delta := entry.delta.map fun delta => { delta with depth := 0, skip := [] } }

/-- Two stores that differ at most in the depths and skip patches of their deltas. -/
structure Reset (s t : ValueStore) : Prop where
  shape : t = { s with entries := t.entries }
  plain : t.entries.map ValueEntry.plain = s.entries.map ValueEntry.plain

theorem Reset.refl (s : ValueStore) : Reset s s := ⟨rfl, rfl⟩

theorem Reset.trans {u : ValueStore} (h : Reset s t) (h' : Reset t u) : Reset s u := by
  refine ⟨?_, h'.plain.trans h.plain⟩
  rw [h'.shape, h.shape]

theorem Reset.length (h : Reset s t) : t.entries.length = s.entries.length := by
  simpa using congrArg List.length h.plain

theorem Reset.wf (h : Reset s t) (hs : s.WF) : t.WF := by
  refine ⟨?_, ?_, ?_⟩
  · rw [h.length, h.shape]
    exact hs.lengths
  · rw [h.shape]
    exact hs.nodup
  · rw [h.shape]
    exact hs.lookup

theorem Reset.entryById (h : Reset s t) (id : ValueId) :
    (t.entryById id).map ValueEntry.plain = (s.entryById id).map ValueEntry.plain := by
  have hindex : t.index = s.index := by rw [h.shape]
  rw [ValueStore.entryById, ValueStore.entryById, hindex]
  cases s.index.lookup id with
  | none => rfl
  | some i =>
    simp only [Option.bind_some]
    rw [← List.getElem?_map, ← List.getElem?_map, h.plain]

theorem nodeFor_false (id : ValueId) :
    s.nodeFor env false id = ((s.entryById id).map ValueEntry.plain).bind (·.node env id) := by
  cases hentry : s.entryById id with
  | none => simp [ValueStore.nodeFor, ValueStore.node, hentry]
  | some entry =>
    by_cases hkind : entry.kind = .delta
    · cases hdelta : entry.delta with
      | none =>
        simp [ValueStore.nodeFor, ValueStore.node, hentry, ValueEntry.node, ValueEntry.plain,
          hkind, hdelta]
      | some delta =>
        simp [ValueStore.nodeFor, ValueStore.node, hentry, ValueEntry.node, ValueEntry.plain,
          hkind, hdelta, Node.dropSkips]
    · simp [ValueStore.nodeFor, ValueStore.node, hentry, ValueEntry.node, ValueEntry.plain,
        hkind, Node.dropSkips]

theorem Reset.nodeFor_false (h : Reset s t) : t.nodeFor env false = s.nodeFor env false := by
  funext id
  rw [SkeinDB.Values.nodeFor_false, SkeinDB.Values.nodeFor_false, h.entryById]

theorem resolves_iff_nodeFor_false {id : ValueId} {v : Bytes} :
    Resolves patchValue (s.node env) id v ↔ Sound patchValue (s.nodeFor env false) id v := by
  rw [resolves_iff_sound_dropSkips]
  rfl

theorem Reset.resolves (h : Reset s t) {id : ValueId} {v : Bytes} :
    Resolves patchValue (t.node env) id v ↔ Resolves patchValue (s.node env) id v := by
  rw [resolves_iff_nodeFor_false, h.nodeFor_false, resolves_iff_nodeFor_false]

/-- The base chain of an id ends within `n` steps. -/
def ChainEnds (env : Env) (s : ValueStore) (n : ℕ) (id : ValueId) : Prop :=
  Grounded (fun k => (s.nodeFor env false k).map Node.deps) n id

theorem ChainEnds.cases {n : ℕ} {id : ValueId} (h : ChainEnds env s (n + 1) id) :
    ∃ entry, s.entryById id = some entry ∧ (entry.kind ≠ .delta ∨
      ∃ delta, entry.kind = .delta ∧ entry.delta = some delta ∧ ChainEnds env s n delta.base) := by
  obtain ⟨ds, hds, hbelow⟩ := h
  obtain ⟨node, hnode, rfl⟩ := Option.map_eq_some_iff.mp hds
  obtain ⟨entry, hentry, ⟨hkind, rfl⟩ | ⟨delta, hkind, hdelta, rfl⟩⟩ := nodeFor_cases hnode
  · exact ⟨entry, hentry, .inl hkind⟩
  · exact ⟨entry, hentry, .inr ⟨delta, hkind, hdelta, hbelow _ (by simp [Node.deps])⟩⟩

theorem ChainEnds.entry {n : ℕ} {id : ValueId} (h : ChainEnds env s n id) :
    ∃ entry, s.entryById id = some entry := by
  cases n with
  | zero => exact h.elim
  | succ n =>
    obtain ⟨entry, hentry, -⟩ := h.cases
    exact ⟨entry, hentry⟩

theorem chainEnds_cell {id : ValueId} {entry : ValueEntry} (h : s.entryById id = some entry)
    (hkind : entry.kind ≠ .delta) : ChainEnds env s 1 id :=
  ⟨[], by simp only [nodeFor_cell h hkind]; rfl, by simp⟩

theorem chainEnds_delta {n : ℕ} {id : ValueId} {entry : ValueEntry} {delta : DeltaEntry}
    (h : s.entryById id = some entry) (hkind : entry.kind = .delta)
    (hdelta : entry.delta = some delta) (hbase : ChainEnds env s n delta.base) :
    ChainEnds env s (n + 1) id := by
  refine ⟨[delta.base], ?_, fun d hd => ?_⟩
  · simp only [nodeFor_delta h hkind hdelta]
    rfl
  · rw [List.mem_singleton.mp hd]
    exact hbase

/-- A memo of depths that all have a property. -/
def MemoHolds (P : ValueId → ℕ → Prop) (memo : Memo) : Prop :=
  ∀ id depth, memo id = some depth → P id depth

theorem MemoHolds.update {P : ValueId → ℕ → Prop} {memo : Memo} (h : MemoHolds P memo)
    {id : ValueId} {depth : ℕ} (hid : P id depth) :
    MemoHolds P (Function.update memo id (some depth)) := by
  intro k d hk
  by_cases hki : k = id
  · subst hki
    rw [Function.update_self] at hk
    cases hk
    exact hid
  · rw [Function.update_of_ne hki] at hk
    exact h k d hk

/-- A memo that holds depths only of chains that end. -/
def MemoSound (env : Env) (s : ValueStore) (memo : Memo) : Prop :=
  ∀ id depth, memo id = some depth → ∃ n, ChainEnds env s n id

/-- The recursion ends: the ids under visit are distinct stored ids. -/
theorem rebuildLoadedDeltaDepth_ne_none (hs : s.WF) {fuel : ℕ} {id : ValueId} {memo : Memo}
    {visiting : List ValueId} (hnodup : visiting.Nodup) (hstored : ∀ x ∈ visiting, x ∈ s.index)
    (hfuel : s.entries.length < fuel + visiting.length) :
    s.rebuildLoadedDeltaDepth fuel id memo visiting ≠ none := by
  induction fuel generalizing id memo visiting with
  | zero =>
    have hlen : visiting.length ≤ s.index.keys.length :=
      (List.subperm_of_subset hnodup fun x hx => AList.mem_keys.mp (hstored x hx)).length_le
    have hkeys := ValueStore.index_length_le hs
    omega
  | succ fuel ih =>
    rw [ValueStore.rebuildLoadedDeltaDepth]
    split
    · simp
    split
    · simp
    rename_i hvisit
    split
    · simp
    rename_i entry hentry
    split
    · simp
    split
    · simp
    rename_i delta hdelta
    split
    · simp
    have hid : id ∈ s.index := by
      rw [← ValueStore.entryById_isSome hs, hentry]
      rfl
    have hrec : s.rebuildLoadedDeltaDepth fuel delta.base memo (id :: visiting) ≠ none := by
      refine ih (List.nodup_cons.mpr ⟨hvisit, hnodup⟩) (fun x hx => ?_)
        (by simp only [List.length_cons]; omega)
      rcases List.mem_cons.mp hx with rfl | hx
      · exact hid
      · exact hstored x hx
    split
    · contradiction
    · simp
    · simp

/-- What holds of the depth of a cell, and of a delta if it does of its base, holds of what is
found. -/
theorem rebuildLoadedDeltaDepth_holds {P : ValueId → ℕ → Prop}
    (hcell : ∀ {id entry}, s.entryById id = some entry → entry.kind ≠ .delta → P id 0)
    (hstep : ∀ {id entry delta depth}, s.entryById id = some entry → entry.kind = .delta →
      entry.delta = some delta → P delta.base depth → P id (min (depth + 1) usizeMax))
    {fuel depth : ℕ} {id : ValueId} {memo memo' : Memo} {visiting : List ValueId}
    (hmemo : MemoHolds P memo)
    (h : s.rebuildLoadedDeltaDepth fuel id memo visiting = some (.ok (depth, memo'))) :
    P id depth ∧ MemoHolds P memo' := by
  induction fuel generalizing id memo memo' visiting depth with
  | zero => simp [ValueStore.rebuildLoadedDeltaDepth] at h
  | succ fuel ih =>
    rw [ValueStore.rebuildLoadedDeltaDepth] at h
    split at h
    · rename_i d hd
      cases h
      exact ⟨hmemo id _ hd, hmemo⟩
    split at h
    · cases h
    split at h
    · cases h
    rename_i entry hentry
    split at h
    · rename_i hkind
      cases h
      have hid := hcell hentry hkind
      exact ⟨hid, hmemo.update hid⟩
    rename_i hkind
    split at h
    · cases h
    rename_i delta hdelta
    split at h
    · cases h
    split at h
    · cases h
    · cases h
    rename_i baseDepth memo1 hrec
    cases h
    obtain ⟨hbase, hmemo1⟩ := ih hmemo hrec
    have hid := hstep hentry (not_not.mp hkind) hdelta hbase
    exact ⟨hid, hmemo1.update hid⟩

/-- A depth is found only for a chain that ends. -/
theorem rebuildLoadedDeltaDepth_sound {fuel depth : ℕ} {id : ValueId} {memo memo' : Memo}
    {visiting : List ValueId} (hmemo : MemoSound env s memo)
    (h : s.rebuildLoadedDeltaDepth fuel id memo visiting = some (.ok (depth, memo'))) :
    (∃ n, ChainEnds env s n id) ∧ MemoSound env s memo' :=
  rebuildLoadedDeltaDepth_holds (P := fun id _ => ∃ n, ChainEnds env s n id)
    (fun hentry hkind => ⟨1, chainEnds_cell hentry hkind⟩)
    (fun hentry hkind hdelta ⟨n, hn⟩ => ⟨n + 1, chainEnds_delta hentry hkind hdelta hn⟩) hmemo h

/-- The depth of a chain that ends is found: no id under visit is as close to its end. -/
theorem rebuildLoadedDeltaDepth_ok {n fuel : ℕ} {id : ValueId} {memo : Memo}
    {visiting : List ValueId} (hend : ChainEnds env s (n + 1) id) (hmin : ¬ ChainEnds env s n id)
    (hvisiting : ∀ x ∈ visiting, ¬ ChainEnds env s (n + 1) x) (hfuel : n < fuel) :
    ∃ depth memo', s.rebuildLoadedDeltaDepth fuel id memo visiting = some (.ok (depth, memo')) := by
  induction n generalizing fuel id memo visiting with
  | zero =>
    obtain ⟨fuel, rfl⟩ : ∃ k, fuel = k + 1 := ⟨fuel - 1, by omega⟩
    have hid : id ∉ visiting := fun hmem => hvisiting id hmem hend
    obtain ⟨entry, hentry, hkind | ⟨delta, -, -, hbase⟩⟩ := hend.cases
    · rw [ValueStore.rebuildLoadedDeltaDepth]
      cases memo id <;> simp [hid, hentry, hkind]
    · exact hbase.elim
  | succ n ih =>
    obtain ⟨fuel, rfl⟩ : ∃ k, fuel = k + 1 := ⟨fuel - 1, by omega⟩
    have hid : id ∉ visiting := fun hmem => hvisiting id hmem hend
    rw [ValueStore.rebuildLoadedDeltaDepth]
    cases memo id with
    | some depth => exact ⟨depth, memo, rfl⟩
    | none =>
      obtain ⟨entry, hentry, hkind | ⟨delta, hkind, hdelta, hbase⟩⟩ := hend.cases
      · simp [hid, hentry, hkind]
      · have hbaseMin : ¬ ChainEnds env s n delta.base := fun h =>
          hmin (chainEnds_delta hentry hkind hdelta h)
        have hvisiting' : ∀ x ∈ id :: visiting, ¬ ChainEnds env s (n + 1) x := by
          intro x hx hends
          rcases List.mem_cons.mp hx with rfl | hx
          · exact hmin hends
          · exact hvisiting x hx (hends.mono (Nat.le_succ _))
        obtain ⟨depth, memo', hrec⟩ : ∃ depth memo', s.rebuildLoadedDeltaDepth fuel delta.base memo
            (id :: visiting) = some (.ok (depth, memo')) :=
          ih hbase hbaseMin hvisiting' (by omega)
        obtain ⟨baseEntry, hbaseEntry, -⟩ := hbase.cases
        simp [hid, hentry, hkind, hdelta, hbaseEntry, hrec]

/-- A call of the depth loop succeeds on every chain that ends. -/
theorem rebuildLoadedDeltaDepth_of_ends (hs : s.WF) {id : ValueId} (memo : Memo)
    (h : ∃ n, ChainEnds env s n id) : ∃ depth memo',
      s.rebuildLoadedDeltaDepth (s.entries.length + 1) id memo [] = some (.ok (depth, memo')) := by
  classical
  obtain ⟨k, hk⟩ : ∃ k, Nat.find h = k + 1 := by
    cases hfind : Nat.find h with
    | zero =>
      have hzero := Nat.find_spec h
      rw [hfind] at hzero
      exact hzero.elim
    | succ k => exact ⟨k, rfl⟩
  have hend := Nat.find_spec h
  have hmin : ¬ ChainEnds env s k id := Nat.find_min h (by omega)
  have hle : Nat.find h ≤ s.entries.length := Nat.find_min' h (grounded_entries hs hend)
  rw [hk] at hend hle
  exact rebuildLoadedDeltaDepth_ok hend hmin (by simp) (by omega)

/-- The entry with a recomputed depth. -/
def ValueEntry.withDepth (entry : ValueEntry) (depth : ℕ) : ValueEntry :=
  { entry with delta := entry.delta.map fun delta => { delta with depth := depth, skip := [] } }

/-- Resetting a stored id overwrites its entry. -/
theorem resetDelta_eq {id : ValueId} {entry : ValueEntry} (h : s.entryById id = some entry)
    (depth : ℕ) : ∃ idx, s.index.lookup id = some idx ∧ s.entries[idx]? = some entry ∧
      s.resetDelta id depth = { s with entries := s.entries.set idx (entry.withDepth depth) } := by
  obtain ⟨idx, hidx, hget⟩ := Option.bind_eq_some_iff.mp h
  refine ⟨idx, hidx, hget, ?_⟩
  obtain ⟨kind, bytes, delta⟩ := entry
  cases delta with
  | none =>
    obtain ⟨hlt, hentry⟩ := List.getElem?_eq_some_iff.mp hget
    have hset : s.entries.set idx ⟨kind, bytes, none⟩ = s.entries := by
      rw [← hentry, List.set_getElem_self]
    simp [ValueStore.resetDelta, hidx, hget, ValueEntry.withDepth, hset]
  | some delta => simp [ValueStore.resetDelta, hidx, hget, ValueEntry.withDepth]

/-- Overwriting an entry by one with the same chain data. -/
theorem reset_set {idx : ℕ} {entry entry' : ValueEntry} (hget : s.entries[idx]? = some entry)
    (hplain : entry'.plain = entry.plain) :
    Reset s { s with entries := s.entries.set idx entry' } := by
  refine ⟨rfl, ?_⟩
  obtain ⟨hlt, hentry⟩ := List.getElem?_eq_some_iff.mp hget
  calc (s.entries.set idx entry').map ValueEntry.plain
      = (s.entries.map ValueEntry.plain).set idx entry.plain := by rw [List.map_set, hplain]
    _ = (s.entries.set idx s.entries[idx]).map ValueEntry.plain := by rw [List.map_set, hentry]
    _ = s.entries.map ValueEntry.plain := by rw [List.set_getElem_self]

theorem resetDelta_reset {id : ValueId} {entry : ValueEntry} (h : s.entryById id = some entry)
    (depth : ℕ) : Reset s (s.resetDelta id depth) := by
  obtain ⟨idx, hidx, hget, heq⟩ := resetDelta_eq h depth
  rw [heq]
  apply reset_set hget
  simp [ValueEntry.withDepth, ValueEntry.plain, Function.comp_def]

/-- The id holds no skip patches. -/
def NoSkips (s : ValueStore) (id : ValueId) : Prop :=
  ∀ entry delta, s.entryById id = some entry → entry.delta = some delta → delta.skip = []

theorem resetDelta_noSkips (hs : s.WF) {id : ValueId} {entry : ValueEntry}
    (h : s.entryById id = some entry) (depth : ℕ) {k : ValueId} (hk : k = id ∨ NoSkips s k) :
    NoSkips (s.resetDelta id depth) k := by
  obtain ⟨idx, hidx, -, heq⟩ := resetDelta_eq h depth
  intro e d he hd
  rw [heq, ValueStore.entryById_set hs hidx] at he
  split at he
  · cases he
    obtain ⟨d', -, rfl⟩ := Option.map_eq_some_iff.mp hd
    rfl
  · rename_i hne
    exact hk.resolve_left hne e d he hd

/-- The depth loop returns, changes metadata only, succeeds exactly when every chain it looks
at ends, and then has dropped the skip patches. -/
theorem depthLoop_spec (hs : s.WF) {memo : Memo} (hmemo : MemoSound env s memo)
    (ids : List ValueId) :
    ∃ r t, s.depthLoop ids memo = some (r, t) ∧ Reset s t ∧
      (r = .ok () ↔ ∀ id ∈ ids, ∃ n, ChainEnds env s n id) ∧
      (r = .ok () → ∀ id, id ∈ ids ∨ NoSkips s id → NoSkips t id) := by
  induction ids generalizing s memo with
  | nil => exact ⟨.ok (), s, rfl, .refl s, by simp, by simp⟩
  | cons id ids ih =>
    rw [ValueStore.depthLoop]
    have hne : s.rebuildLoadedDeltaDepth (s.entries.length + 1) id memo [] ≠ none :=
      rebuildLoadedDeltaDepth_ne_none hs List.nodup_nil (by simp) (by simp)
    cases hrun : s.rebuildLoadedDeltaDepth (s.entries.length + 1) id memo [] with
    | none => contradiction
    | some r =>
      cases r with
      | error e =>
        refine ⟨.error e, s, rfl, .refl s, ?_, by simp⟩
        simp only [reduceCtorEq, false_iff]
        intro hall
        obtain ⟨depth, memo', hok⟩ := rebuildLoadedDeltaDepth_of_ends hs memo (hall id (by simp))
        rw [hok] at hrun
        cases hrun
      | ok r =>
        obtain ⟨depth, memo1⟩ := r
        obtain ⟨⟨n, hid⟩, hmemo1⟩ := rebuildLoadedDeltaDepth_sound hmemo hrun
        obtain ⟨entry, hentry⟩ := hid.entry
        have hreset := resetDelta_reset hentry depth
        have hends (n : ℕ) (k : ValueId) :
            ChainEnds env (s.resetDelta id depth) n k ↔ ChainEnds env s n k := by
          rw [ChainEnds, ChainEnds, hreset.nodeFor_false]
        have hmemo1' : MemoSound env (s.resetDelta id depth) memo1 := by
          intro k d hk
          simpa only [hends] using hmemo1 k d hk
        obtain ⟨r, t, hloop, ht, hr, hskips⟩ := ih (hreset.wf hs) hmemo1'
        refine ⟨r, t, hloop, hreset.trans ht, ?_, fun hok k hk => ?_⟩
        · rw [hr]
          simp only [hends, List.mem_cons, forall_eq_or_imp]
          exact ⟨fun h => ⟨⟨n, hid⟩, h⟩, fun h => h.2⟩
        · rw [List.mem_cons, or_assoc] at hk
          refine hskips hok k ?_
          rcases hk with rfl | hk | hk
          · exact .inr (resetDelta_noSkips hs hentry depth (.inl rfl))
          · exact .inl hk
          · exact .inr (resetDelta_noSkips hs hentry depth (.inr hk))

/-- When every chain ends, the check loop returns, and succeeds exactly when every id
resolves. -/
theorem checkLoop_spec (hs : s.WF) {ids : List ValueId} (hids : ∀ id ∈ ids, id ∈ s.index)
    (hends : ∀ id ∈ ids, ∃ n, ChainEnds env s n id) :
    ∃ r, s.checkLoop env ids = some r ∧
      (r = .ok () ↔ ∀ id ∈ ids, ∃ v, Resolves patchValue (s.node env) id v) := by
  induction ids with
  | nil => exact ⟨.ok (), rfl, by simp⟩
  | cons id ids ih =>
    obtain ⟨r, hr, hok⟩ := ih (fun k hk => hids k (by simp [hk])) (fun k hk => hends k (by simp [hk]))
    obtain ⟨entry, hentry⟩ := Option.isSome_iff_exists.mp
      ((ValueStore.entryById_isSome hs).mpr (hids id (by simp)))
    simp only [ValueStore.checkLoop, hentry, List.mem_cons, forall_eq_or_imp]
    by_cases hkind : entry.kind = .delta
    · cases hdelta : entry.delta with
      | none =>
        refine ⟨.error .invalidDelta, by simp [hkind], ?_⟩
        simp only [reduceCtorEq, false_iff, not_and]
        rintro ⟨v, hv⟩
        have hsome := hv.isSome
        simp [ValueStore.node, hentry, ValueEntry.node, hkind, hdelta] at hsome
      | some delta =>
        obtain ⟨n, hn⟩ := hends id (by simp)
        have hne : materializeInternal env s id false ≠ none := by
          rw [materializeInternal, ne_eq, Option.map_eq_none_iff]
          exact materializeWithCache_ne_none (grounded_entries hs hn) (Nat.le_succ _)
        simp only [hkind, ne_eq, not_true_eq_false, if_false]
        cases hmat : materializeInternal env s id false with
        | none => contradiction
        | some m =>
          cases m with
          | error e =>
            refine ⟨.error e, rfl, ?_⟩
            simp only [reduceCtorEq, false_iff, not_and]
            rintro ⟨v, hv⟩
            obtain ⟨trace, hrun⟩ := (materializeInternal_iff hs).mpr hv
            rw [hmat] at hrun
            cases hrun
          | ok m =>
            obtain ⟨v, trace⟩ := m
            refine ⟨r, hr, ?_⟩
            rw [hok]
            exact ⟨fun h => ⟨⟨v, materializeInternal_sound hmat⟩, h⟩, fun h => h.2⟩
    · refine ⟨r, by simp [hkind, hr], ?_⟩
      rw [hok]
      exact ⟨fun h => ⟨⟨entry.bytes, .cell (node_cell hentry hkind)⟩, h⟩, fun h => h.2⟩

/-- What recomputing the metadata does: it returns, changes metadata and the learned index
only, and succeeds exactly when every stored id resolves, with no skip patches left. -/
theorem recompute_spec (env : Env) (hs : s.WF) :
    ∃ r t u, s.recomputeLoadedDeltaMetadata env = some (r, u) ∧ Reset s t ∧
      (u = t ∨ u = t.refreshLearnedIndex env) ∧
      (r = .ok () ↔ ∀ id ∈ s.index, ∃ v, Resolves patchValue (s.node env) id v) ∧
      (r = .ok () → ∀ id ∈ s.index, NoSkips t id) := by
  have hmem (id : ValueId) : id ∈ s.entryIds ↔ id ∈ s.index := (ValueStore.mem_index_iff hs).symm
  have hempty : MemoSound env s (fun _ => none) := fun k d hk => by cases hk
  obtain ⟨r, t, hloop, hreset, hr, hskips⟩ := depthLoop_spec hs hempty (s.entryIds)
  have hids : t.entryIds = s.entryIds := by rw [hreset.shape]
  have hindex : t.index = s.index := by rw [hreset.shape]
  simp only [ValueStore.recomputeLoadedDeltaMetadata, hloop]
  cases r with
  | error e =>
    refine ⟨.error e, t, t, rfl, hreset, .inl rfl, ?_, by simp⟩
    simp only [reduceCtorEq, false_iff] at hr ⊢
    intro hall
    refine hr fun id hid => ?_
    obtain ⟨v, hv⟩ := hall id ((hmem id).mp hid)
    exact Resolves.grounded hv
  | ok _ =>
    have hends : ∀ id ∈ s.entryIds, ∃ n, ChainEnds env s n id := hr.mp rfl
    have hends' : ∀ id ∈ t.entryIds, ∃ n, ChainEnds env t n id := by
      intro id hid
      rw [hids] at hid
      simpa only [ChainEnds, hreset.nodeFor_false] using hends id hid
    obtain ⟨r, hcheck, hok⟩ := checkLoop_spec (hreset.wf hs)
      (fun id hid => by rw [hindex, ← hmem, ← hids]; exact hid) hends'
    simp only [hcheck]
    have hall : r = .ok () ↔ ∀ id ∈ s.index, ∃ v, Resolves patchValue (s.node env) id v := by
      rw [hok, hids]
      simp only [hmem, hreset.resolves]
    cases r with
    | error e => exact ⟨.error e, t, t, rfl, hreset, .inl rfl, hall, by simp⟩
    | ok _ =>
      refine ⟨.ok (), t, _, rfl, hreset, ?_, hall, fun _ id hid =>
        hskips rfl id (.inl ((hmem id).mpr hid))⟩
      split
      · exact .inr rfl
      · exact .inl rfl

/-- A store grows by entries of a list, each with a fresh id. -/
inductive Pushes (es : List ValueSegmentEntry) : ValueStore → ValueStore → Prop
  | refl (s : ValueStore) : Pushes es s s
  | push {s t : ValueStore} {e : ValueSegmentEntry} (he : e ∈ es) (hid : e.id ∉ s.index)
      (h : Pushes es (s.pushEntry e.id e.entry) t) : Pushes es s t

theorem Pushes.mono {es es' : List ValueSegmentEntry} (h : Pushes es s t) (hes : es ⊆ es') :
    Pushes es' s t := by
  induction h with
  | refl s => exact .refl s
  | push he hid _ ih => exact .push (hes he) hid ih

theorem Pushes.wf {es : List ValueSegmentEntry} (h : Pushes es s t) (hs : s.WF) : t.WF := by
  induction h with
  | refl => exact hs
  | push _ hid _ ih => exact ih (ValueStore.pushEntry_wf hs hid _)

theorem Pushes.length_le {es : List ValueSegmentEntry} (h : Pushes es s t) :
    s.entries.length ≤ t.entries.length := by
  induction h with
  | refl => exact le_rfl
  | push _ _ _ ih => exact le_trans (by simp [ValueStore.pushEntry]) ih

/-- What a lookup finds once the list is inserted: the store comes first, then the first entry
of the list with the id. -/
def ValueStore.mergedEntry (s : ValueStore) (es : List ValueSegmentEntry) (id : ValueId) :
    Option ValueEntry :=
  (s.entryById id).or ((es.find? (fun e => e.id = id)).map (·.entry))

def ValueStore.mergedNode (env : Env) (s : ValueStore) (es : List ValueSegmentEntry)
    (id : ValueId) : Option (Node ValueId Bytes Bytes) :=
  (s.mergedEntry es id).bind (fun entry => entry.node env id)

theorem mergedEntry_skip (hs : s.WF) {e : ValueSegmentEntry} (hid : e.id ∈ s.index)
    (es : List ValueSegmentEntry) (id : ValueId) :
    s.mergedEntry (e :: es) id = s.mergedEntry es id := by
  by_cases hk : e.id = id
  · obtain ⟨entry, hentry⟩ := Option.isSome_iff_exists.mp ((ValueStore.entryById_isSome hs).mpr hid)
    rw [hk] at hentry
    simp [ValueStore.mergedEntry, hentry]
  · simp [ValueStore.mergedEntry, hk]

theorem mergedEntry_push (hs : s.WF) {e : ValueSegmentEntry} (hid : e.id ∉ s.index)
    (es : List ValueSegmentEntry) (id : ValueId) :
    s.mergedEntry (e :: es) id = (s.pushEntry e.id e.entry).mergedEntry es id := by
  rw [ValueStore.mergedEntry, ValueStore.mergedEntry, ValueStore.entryById_pushEntry hs]
  by_cases hk : id = e.id
  · have hnone : s.entryById e.id = none := by
      rw [← ValueStore.entryById_isSome hs] at hid
      simpa using hid
    simp [hk, hnone]
  · simp [hk, Ne.symm hk]

/-- The insertions of an import never fail, and count the ids that were absent. -/
theorem importLoop_spec (hs : s.WF) (inserted : ℕ) (es : List ValueSegmentEntry) :
    ∃ n t, s.importLoop inserted es = (.ok n, t) ∧ Pushes es s t ∧
      (∀ id, t.entryById id = s.mergedEntry es id) ∧
      ((n = inserted ∧ t = s ∧ ∀ e ∈ es, e.id ∈ s.index) ∨
        (0 < n ∧ s.entries.length < t.entries.length ∧ ∃ e ∈ es, e.id ∉ s.index)) := by
  induction es generalizing s inserted with
  | nil => exact ⟨inserted, s, rfl, .refl s, by simp [ValueStore.mergedEntry], .inl (by simp)⟩
  | cons e es ih =>
    by_cases hid : e.id ∈ s.index
    · obtain ⟨n, t, hrun, hpush, hlook, hcount⟩ := ih hs inserted
      refine ⟨n, t, by rw [ValueStore.importLoop, if_pos hid, hrun], hpush.mono (by simp),
        fun id => by rw [hlook, mergedEntry_skip hs hid], ?_⟩
      refine hcount.imp (fun h => ⟨h.1, h.2.1, by simpa [hid] using h.2.2⟩) fun h => ⟨h.1, h.2.1, ?_⟩
      obtain ⟨e', he', hid'⟩ := h.2.2
      exact ⟨e', by simp [he'], hid'⟩
    · have hpushed := ValueStore.pushEntry_wf hs hid e.entry
      obtain ⟨n, t, hrun, hpush, hlook, hcount⟩ := ih hpushed (min (inserted + 1) usizeMax)
      have hlen := hpush.length_le
      have hpos : 0 < n := by
        rcases hcount with ⟨rfl, -⟩ | ⟨hn, -⟩
        · simp [usizeMax]
        · exact hn
      refine ⟨n, t, ?_, .push (by simp) hid (hpush.mono (by simp)),
        fun id => by rw [hlook, mergedEntry_push hs hid], .inr ⟨hpos, ?_, e, by simp, hid⟩⟩
      · rw [ValueStore.importLoop, if_neg hid, ValueStore.insertLoadedEntry, if_neg hid]
        exact hrun
      · simp only [ValueStore.pushEntry, List.length_append, List.length_singleton] at hlen
        omega

/-- The insertions of a load succeed exactly on distinct fresh ids. -/
theorem loadLoop_spec (hs : s.WF) {es : List ValueSegmentEntry}
    (hfresh : ∀ e ∈ es, e.id ∉ s.index) (hnodup : (es.map (·.id)).Nodup) :
    ∃ t, s.loadLoop es = .ok t ∧ Pushes es s t ∧ ∀ id, t.entryById id = s.mergedEntry es id := by
  induction es generalizing s with
  | nil => exact ⟨s, rfl, .refl s, by simp [ValueStore.mergedEntry]⟩
  | cons e es ih =>
    have hid := hfresh e (by simp)
    rw [List.map_cons, List.nodup_cons] at hnodup
    have hfresh' : ∀ e' ∈ es, e'.id ∉ (s.pushEntry e.id e.entry).index := by
      intro e' he' hmem
      rw [ValueStore.pushEntry, AList.mem_insert] at hmem
      rcases hmem with heq | hmem
      · exact hnodup.1 (heq ▸ List.mem_map_of_mem he')
      · exact hfresh e' (by simp [he']) hmem
    obtain ⟨t, hrun, hpush, hlook⟩ := ih (ValueStore.pushEntry_wf hs hid e.entry) hfresh' hnodup.2
    refine ⟨t, ?_, .push (by simp) hid (hpush.mono (by simp)), fun id => by
      rw [hlook, mergedEntry_push hs hid]⟩
    rw [ValueStore.loadLoop, List.foldlM_cons, ValueStore.insertLoadedEntry, if_neg hid]
    exact hrun

theorem loadLoop_pushes {es : List ValueSegmentEntry} (h : s.loadLoop es = .ok t) :
    Pushes es s t := by
  induction es generalizing s with
  | nil =>
    cases h
    exact .refl _
  | cons e es ih =>
    rw [ValueStore.loadLoop, List.foldlM_cons, ValueStore.insertLoadedEntry] at h
    by_cases hid : e.id ∈ s.index
    · rw [if_pos hid] at h
      cases h
    · rw [if_neg hid] at h
      exact .push (by simp) hid ((ih h).mono (by simp))

/-- The store between the insertions and the recomputed metadata, and the one after. -/
structure Recomputed (env : Env) (es : List ValueSegmentEntry) (s p t u : ValueStore) : Prop where
  pushes : Pushes es s p
  look : ∀ id, p.entryById id = s.mergedEntry es id
  reset : Reset p t
  learned : u = t ∨ u = t.refreshLearnedIndex env

theorem Recomputed.same {es : List ValueSegmentEntry} {p u : ValueStore}
    (h : Recomputed env es s p t u) : ValueStore.SameContents t u := by
  rcases h.learned with rfl | rfl
  · exact ⟨rfl, rfl, rfl, rfl, rfl⟩
  · exact ValueStore.refreshLearnedIndex_same env t

/-- Every entry of the merged lookup resolves in it. -/
def AllResolve (env : Env) (s : ValueStore) (es : List ValueSegmentEntry) : Prop :=
  ∀ id, (s.mergedEntry es id).isSome → ∃ v, Resolves patchValue (s.mergedNode env es) id v

theorem allResolve_iff {es : List ValueSegmentEntry} {p : ValueStore} (hp : p.WF)
    (hlook : ∀ id, p.entryById id = s.mergedEntry es id) :
    (∀ id ∈ p.index, ∃ v, Resolves patchValue (p.node env) id v) ↔ AllResolve env s es := by
  have hnode : p.node env = s.mergedNode env es := by
    funext id
    rw [ValueStore.node, ValueStore.mergedNode, hlook]
  simp only [← ValueStore.entryById_isSome hp, hlook, hnode, AllResolve]

/-- An import returns. With every id present it does nothing; otherwise it inserts, and
succeeds exactly when every entry of the merged lookup resolves. -/
theorem importTransferEntries_spec (env : Env) (hs : s.WF) (es : List ValueSegmentEntry) :
    ∃ r p t u, s.importTransferEntries env es = some (r, u) ∧ Recomputed env es s p t u ∧
      (((∀ e ∈ es, e.id ∈ s.index) ∧ r = .ok 0 ∧ u = s) ∨
        ((∃ e ∈ es, e.id ∉ s.index) ∧ s.entries.length < u.entries.length ∧
          ((∃ n, r = .ok n) ↔ AllResolve env s es) ∧
          ((∃ n, r = .ok n) → ∀ id ∈ p.index, NoSkips t id))) := by
  obtain ⟨n, p, hrun, hpush, hlook, hcount⟩ := importLoop_spec hs 0 es
  rcases hcount with ⟨rfl, rfl, hall⟩ | ⟨hn, hlen, habsent⟩
  · refine ⟨.ok 0, p, p, p, ?_, ⟨hpush, hlook, .refl p, .inl rfl⟩, .inl ⟨hall, rfl, rfl⟩⟩
    simp [ValueStore.importTransferEntries, hrun]
  · have hp := hpush.wf hs
    obtain ⟨r, t, u, hrec, hreset, hlearned, hok, hskips⟩ := recompute_spec env hp
    have hu : u.entries.length = p.entries.length := by
      rcases hlearned with rfl | rfl
      · exact hreset.length
      · rw [(ValueStore.refreshLearnedIndex_same env t).entries, hreset.length]
    rw [allResolve_iff hp hlook] at hok
    refine ⟨r.map (fun _ => n), p, t, u, ?_, ⟨hpush, hlook, hreset, hlearned⟩,
      .inr ⟨habsent, by omega, ?_, ?_⟩⟩
    · simp only [ValueStore.importTransferEntries, hrun, hn, if_true, hrec]
      cases r <;> rfl
    · rw [← hok]
      cases r <;> simp [Except.map]
    · intro hr
      refine hskips ?_
      cases r with
      | error e => simp [Except.map] at hr
      | ok _ => rfl

/-- A load returns. A loaded store was built by insertions and resolves every id without
skip patches. -/
theorem loadStore_spec {config : ValueStoreConfig} {es : List ValueSegmentEntry} {u : ValueStore}
    (h : ValueStore.loadStore env config es = some (.ok u)) :
    ∃ p t, Pushes es (.new config) p ∧ Reset p t ∧ (u = t ∨ u = t.refreshLearnedIndex env) ∧
      (∀ id ∈ p.index, ∃ v, Resolves patchValue (p.node env) id v) ∧
      ∀ id ∈ p.index, NoSkips t id := by
  unfold ValueStore.loadStore at h
  cases hload : (ValueStore.new config).loadLoop es with
  | error e => simp [hload] at h
  | ok p =>
    have hpush := loadLoop_pushes hload
    obtain ⟨r, t, u', hrec, hreset, hlearned, hok, hskips⟩ :=
      recompute_spec env (hpush.wf (ValueStore.new_wf config))
    simp only [hload, hrec] at h
    cases r with
    | error e => simp at h
    | ok _ =>
      cases h
      exact ⟨p, t, hpush, hreset, hlearned, hok.mp rfl, hskips rfl⟩

end Specs

end SkeinDB.Values
