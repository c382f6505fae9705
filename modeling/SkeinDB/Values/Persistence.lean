import SkeinDB.Values.LearnedIndex
import SkeinDB.Values.Segment

/-!
# Persistence round trips

Writing part of a store to a segment and loading it, or exporting its entries and importing
them in any order, gives back the same ids with the same bytes. The part must hold the base
of every delta in it.
-/
namespace SkeinDB.Values
open SkeinDB.Codec SkeinDB.Format SkeinDB.Delta

section Sizes
variable {env : Env} {s t : ValueStore}

theorem ValueEntry.Fits.storable {entry : ValueEntry} (h : entry.Fits) : entry.Storable := by
  have hbytes := h.bytes
  exact ⟨by omega, fun delta hdelta => ⟨h.fullLen delta hdelta, by omega⟩⟩

/-- Every entry can be stored. -/
def Sizes (s : ValueStore) : Prop := ∀ entry ∈ s.entries, entry.Storable

theorem Sizes.pushEntry (h : Sizes s) {entry : ValueEntry} (hentry : entry.Storable)
    (id : ValueId) : Sizes (s.pushEntry id entry) := by
  intro e he
  rcases List.mem_append.mp he with he | he
  · exact h e he
  · rw [List.mem_singleton.mp he]
    exact hentry

theorem Sizes.same (h : Sizes s) (hsame : ValueStore.SameContents s t) : Sizes t := by
  intro e he
  rw [hsame.entries] at he
  exact h e he

theorem Sizes.insertNew (h : Sizes s) {entry : ValueEntry} (hentry : entry.Storable)
    (id : ValueId) : Sizes (s.insertNew env id entry) :=
  (h.pushEntry hentry id).same (ValueStore.insertNew_same env s id entry)

theorem Sizes.set (h : Sizes s) {entry : ValueEntry} (hentry : entry.Storable) (idx : ℕ) :
    Sizes { s with entries := s.entries.set idx entry } := by
  intro e he
  rcases List.mem_or_eq_of_mem_set he with he | rfl
  · exact h e he
  · exact hentry

theorem Sizes.pushes {es : List ValueSegmentEntry} (h : Sizes s) (hpush : Pushes es s t)
    (hfits : ∀ e ∈ es, e.entry.Fits) : Sizes t := by
  induction hpush with
  | refl => exact h
  | push he _ _ ih => exact ih (h.pushEntry (hfits _ he).storable _)

theorem storable_plain {entry : ValueEntry} : entry.plain.Storable ↔ entry.Storable := by
  constructor
  · intro h
    exact ⟨h.bytes, fun delta hdelta => h.delta { delta with depth := 0, skip := [] } (by
      simp [ValueEntry.plain, hdelta])⟩
  · intro h
    refine ⟨h.bytes, fun delta hdelta => ?_⟩
    obtain ⟨d, hd, rfl⟩ := Option.map_eq_some_iff.mp hdelta
    exact h.delta d hd

theorem Sizes.reset (h : Sizes s) (hreset : Reset s t) : Sizes t := by
  intro e he
  have hplain : e.plain ∈ s.entries.map ValueEntry.plain := by
    rw [← hreset.plain]
    exact List.mem_map_of_mem he
  obtain ⟨e', he', heq⟩ := List.mem_map.mp hplain
  rw [← storable_plain, ← heq, storable_plain]
  exact h e' he'

theorem Sizes.entry (h : Sizes s) {id : ValueId} {entry : ValueEntry}
    (hentry : s.entryById id = some entry) : entry.Storable := by
  obtain ⟨idx, -, hget⟩ := Option.bind_eq_some_iff.mp hentry
  exact h entry (List.mem_of_getElem? hget)

/-- A value that resolves has the length its entry says. -/
theorem Sizes.resolves (h : Sizes s) {id : ValueId} {v : Bytes}
    (hv : Resolves patchValue (s.node env) id v) : v.length < 2 ^ 64 := by
  rw [resolves_iff_nodeFor_false] at hv
  cases hv with
  | cell hnode =>
    obtain ⟨entry, hentry, ⟨-, heq⟩ | ⟨delta, -, -, heq⟩⟩ := nodeFor_cases hnode
    · cases heq
      exact (h.entry hentry).bytes
    · cases heq
  | delta _ hnode _ _ haccepts =>
    obtain ⟨entry, hentry, ⟨-, heq⟩ | ⟨delta, -, hdelta, heq⟩⟩ := nodeFor_cases hnode
    · cases heq
    · cases heq
      simp only [decide_eq_true_eq] at haccepts
      rw [haccepts.1]
      exact ((h.entry hentry).delta delta hdelta).1

theorem rewriteStep_sizes {report report' : DeltaCompactionReport} {id : ValueId} (hs : Sizes s)
    (h : rewriteStep env (s, report) id = some (t, report')) : Sizes t := by
  simp only [rewriteStep, Option.bind_eq_bind, Option.bind_eq_some_iff] at h
  obtain ⟨chain, -, m, hmat, h⟩ := h
  cases m with
  | error e =>
    cases h
    exact hs
  | ok m =>
    obtain ⟨bytes, trace⟩ := m
    have hlen := hs.resolves (materializeInternal_sound hmat)
    simp only at h
    split at h
    · cases h
      exact hs
    · split at h
      · cases h
        exact hs.set ⟨hlen, by simp⟩ _
      · cases h
        exact hs

theorem rewrite_run_sizes {ids : List ValueId} {report report' : DeltaCompactionReport}
    (hs : Sizes s) (h : ids.foldlM (rewriteStep env) (s, report) = some (t, report')) :
    Sizes t := by
  induction ids generalizing s report with
  | nil =>
    cases h
    exact hs
  | cons id ids ih =>
    rw [List.foldlM_cons, Option.bind_eq_bind, Option.bind_eq_some_iff] at h
    obtain ⟨⟨u, report1⟩, hstep, hrun⟩ := h
    exact ih (rewriteStep_sizes hs hstep) hrun

theorem applySkipUpdates_sizes (acc : ValueStore × DeltaCompactionReport) (hs : Sizes acc.1)
    (updates : List (ValueId × ℕ × List SkipPatch)) :
    Sizes (updates.foldl applySkipUpdate acc).1 := by
  induction updates generalizing acc with
  | nil => exact hs
  | cons update updates ih =>
    refine ih _ ?_
    obtain ⟨s, report⟩ := acc
    simp only [applySkipUpdate]
    split
    · exact hs
    split
    · exact hs
    rename_i entry hentry
    split
    · exact hs
    rename_i delta hdelta
    have hs : Sizes s := hs
    have hstore := hs entry (List.mem_of_getElem? hentry)
    have hupdated : ValueEntry.Storable
        { entry with delta := some { delta with depth := update.2.1, skip := update.2.2 } } := by
      refine ⟨hstore.bytes, fun d hd => ?_⟩
      cases hd
      exact hstore.delta delta hdelta
    exact hs.set hupdated _

theorem compactDeltas_sizes {order order' : Order} {report : DeltaCompactionReport} (hs : Sizes s)
    (h : compactDeltas env s order order' = some (t, report)) : Sizes t := by
  simp only [compactDeltas, Option.bind_eq_bind, Option.bind_eq_some_iff] at h
  obtain ⟨⟨u, report1⟩, hrun, h⟩ := h
  have hu := rewrite_run_sizes hs hrun
  simp only at h
  split at h
  · simp only [Option.bind_eq_some_iff] at h
    obtain ⟨⟨updates, report2⟩, -, h⟩ := h
    have happly := applySkipUpdates_sizes (u, report2) hu updates
    rwa [Option.some.inj h] at happly
  · cases h
    exact hu

theorem Sizes.putWithId (h : Sizes s) (kind : ValueKind) (id : ValueId) {bytes : Bytes}
    (hlen : bytes.length < 2 ^ 63) : Sizes (s.putWithId env kind id bytes).1 := by
  unfold ValueStore.putWithId
  split
  · exact h
  · exact h.insertNew ⟨by simpa using hlen.trans (by norm_num), by simp⟩ _

theorem Sizes.recomputed {es : List ValueSegmentEntry} {p q u : ValueStore} (h : Sizes s)
    (hfits : ∀ e ∈ es, e.entry.Fits) (hpush : Pushes es s p) (hreset : Reset p q)
    (hlearned : u = q ∨ u = q.refreshLearnedIndex env) : Sizes u := by
  have hq := (h.pushes hpush hfits).reset hreset
  rcases hlearned with rfl | rfl
  · exact hq
  · exact hq.same (ValueStore.refreshLearnedIndex_same env q)

theorem Reachable.sizes (h : Reachable env s) : Sizes s := by
  induction h with
  | new config => simp [Sizes, ValueStore.new]
  | putWithId _ kind id hlen ih => exact ih.putWithId kind id hlen
  | @putWithDelta s t kind bytes base id _ hlen hput ih =>
    obtain hput | ⟨-, rfl, baseId, b, depth, skip, -, -, -, -, rfl⟩ := putWithDelta_cases hput
    · have hsizes : Sizes (s.put env kind bytes).1 := ih.putWithId kind (env.valueId bytes) hlen
      rwa [hput] at hsizes
    · have hpatch := buildPatchBytes_length_le b bytes
      refine ih.insertNew ⟨by simp only; omega, fun delta hdelta => ?_⟩ _
      cases hdelta
      simp only
      omega
  | setDeltaPolicy _ _ ih => exact ih
  | compactDeltas _ hcompact ih => exact compactDeltas_sizes ih hcompact
  | @get s _ id ih =>
    rw [get_snd]
    exact ih
  | enable _ _ ih => exact ih
  | @maybeRefresh s _ ih => exact ih.same (ValueStore.maybeRefresh_same env s)
  | @refreshLearnedIndex s _ ih => exact ih.same (ValueStore.refreshLearnedIndex_same env s)
  | @importTransferEntries s t es r h hfits himport ih =>
    obtain ⟨r', p, q, u, hrun, hrec, -⟩ := importTransferEntries_spec env h.lookupInv.wf es
    rw [hrun] at himport
    cases himport
    exact ih.recomputed hfits hrec.pushes hrec.reset hrec.learned
  | @loadStore config t es hfits hload =>
    obtain ⟨p, q, hpush, hreset, hlearned, -⟩ := loadStore_spec hload
    have hnew : Sizes (.new config) := by simp [Sizes, ValueStore.new]
    exact hnew.recomputed hfits hpush hreset hlearned

end Sizes

/-- The runs in which no plain write is of kind delta and every import succeeded. -/
inductive CleanRun (env : Env) : ValueStore → Prop
  | new (config : ValueStoreConfig) : CleanRun env (.new config)
  | putWithId {s : ValueStore} {kind : ValueKind} {bytes : Bytes} (h : CleanRun env s)
      (hkind : kind ≠ .delta) (id : ValueId) (hlen : bytes.length < 2 ^ 63) :
      CleanRun env (s.putWithId env kind id bytes).1
  | putWithDelta {s t : ValueStore} {kind : ValueKind} {bytes : Bytes} {base : Option ValueId}
      {id : ValueId} (h : CleanRun env s) (hkind : kind ≠ .delta) (hlen : bytes.length < 2 ^ 63)
      (hput : putWithDelta env s kind bytes base = some (t, id)) : CleanRun env t
  | setDeltaPolicy {s : ValueStore} (h : CleanRun env s) (policy : DeltaPolicy) :
      CleanRun env (s.setDeltaPolicy policy)
  | compactDeltas {s t : ValueStore} {order order' : Order} {report : DeltaCompactionReport}
      (h : CleanRun env s) (horder' : order'.Perm s.index.entries)
      (hcompact : compactDeltas env s order order' = some (t, report)) : CleanRun env t
  | get {s : ValueStore} (h : CleanRun env s) (id : ValueId) : CleanRun env (s.get id).2
  | enable {s : ValueStore} (h : CleanRun env s) (enabled : Bool) :
      CleanRun env { s with config := { s.config with enableLearnedIndex := enabled } }
  | maybeRefresh {s : ValueStore} (h : CleanRun env s) : CleanRun env (s.maybeRefresh env)
  | refreshLearnedIndex {s : ValueStore} (h : CleanRun env s) :
      CleanRun env (s.refreshLearnedIndex env)
  | importTransferEntries {s t : ValueStore} {es : List ValueSegmentEntry} {n : ℕ}
      (h : CleanRun env s) (hfits : ∀ e ∈ es, e.entry.Fits)
      (himport : s.importTransferEntries env es = some (.ok n, t)) : CleanRun env t
  | loadStore {config : ValueStoreConfig} {t : ValueStore} {es : List ValueSegmentEntry}
      (hfits : ∀ e ∈ es, e.entry.Fits)
      (hload : ValueStore.loadStore env config es = some (.ok t)) : CleanRun env t

section Clean
variable {env : Env} {s t : ValueStore}

theorem CleanRun.reachable (h : CleanRun env s) : Reachable env s := by
  induction h with
  | new config => exact .new config
  | putWithId _ _ id hlen ih => exact .putWithId ih _ id hlen
  | putWithDelta _ _ hlen hput ih => exact .putWithDelta ih hlen hput
  | setDeltaPolicy _ policy ih => exact .setDeltaPolicy ih policy
  | compactDeltas _ _ hcompact ih => exact .compactDeltas ih hcompact
  | get _ id ih => exact .get ih id
  | enable _ enabled ih => exact .enable ih enabled
  | maybeRefresh _ ih => exact .maybeRefresh ih
  | refreshLearnedIndex _ ih => exact .refreshLearnedIndex ih
  | importTransferEntries _ hfits himport ih => exact .importTransferEntries ih hfits himport
  | loadStore hfits hload => exact .loadStore hfits hload

/-- Without skip patches, both evaluations see the same nodes. -/
theorem node_of_noSkips (hs : s.WF) (h : ∀ id ∈ s.index, NoSkips s id) :
    s.node env = s.nodeFor env false := by
  funext id
  cases hentry : s.entryById id with
  | none => simp [ValueStore.nodeFor, ValueStore.node, hentry]
  | some entry =>
    have hid : id ∈ s.index := by
      rw [← ValueStore.entryById_isSome hs, hentry]
      rfl
    by_cases hkind : entry.kind = .delta
    · cases hdelta : entry.delta with
      | none =>
        simp [ValueStore.nodeFor, ValueStore.node, hentry, ValueEntry.node, hkind, hdelta]
      | some delta =>
        rw [node_delta hentry hkind hdelta, nodeFor_delta hentry hkind hdelta,
          h id hid entry delta hentry hdelta]
        rfl
    · rw [node_cell hentry hkind, nodeFor_cell hentry hkind]

theorem sound_of_noSkips (hs : s.WF) (h : ∀ id ∈ s.index, NoSkips s id) {id : ValueId}
    {v : Bytes} (hv : Resolves patchValue (s.node env) id v) :
    Sound patchValue (s.node env) id v := by
  rw [node_of_noSkips hs h]
  exact resolves_iff_nodeFor_false.mp hv

/-- After a successful import or load every id is sound. -/
theorem healthy_of_noSkips (hs : s.WF) (hsizes : Sizes s) (hskips : ∀ id ∈ s.index, NoSkips s id)
    (hresolves : ∀ id ∈ s.index, ∃ v, Resolves patchValue (s.node env) id v) : Healthy env s := by
  refine ⟨hs, fun id hid => ?_⟩
  obtain ⟨v, hv⟩ := hresolves id hid
  exact ⟨v, hsizes.resolves hv, sound_of_noSkips hs hskips hv⟩

theorem NoSkips.same {id : ValueId} (h : NoSkips s id) (hsame : ValueStore.SameContents s t) :
    NoSkips t id := by
  intro entry delta hentry hdelta
  rw [hsame.entryById] at hentry
  exact h entry delta hentry hdelta

/-- What recomputing leaves of the store it is given. -/
theorem recomputed_frame {p q u : ValueStore} (hp : p.WF) (hreset : Reset p q)
    (hlearned : u = q ∨ u = q.refreshLearnedIndex env) :
    u.WF ∧ u.index = p.index ∧ ValueStore.SameContents q u ∧
      ∀ id v, Resolves patchValue (u.node env) id v ↔ Resolves patchValue (p.node env) id v := by
  have hsame : ValueStore.SameContents q u := by
    rcases hlearned with rfl | rfl
    · exact ⟨rfl, rfl, rfl, rfl, rfl⟩
    · exact ValueStore.refreshLearnedIndex_same env q
  have hnode : u.node env = q.node env := node_congr hsame.entryById
  refine ⟨hsame.wf (hreset.wf hp), ?_, hsame, fun id v => ?_⟩
  · rw [hsame.index, hreset.shape]
  · rw [hnode, hreset.resolves]

/-- A successful recomputation leaves every id sound. -/
theorem recomputed_healthy {p q u : ValueStore} (hp : p.WF) (hreset : Reset p q)
    (hlearned : u = q ∨ u = q.refreshLearnedIndex env) (hsizes : Sizes u)
    (hskips : ∀ id ∈ p.index, NoSkips q id)
    (hresolves : ∀ id ∈ p.index, ∃ v, Resolves patchValue (p.node env) id v) : Healthy env u := by
  obtain ⟨hu, hindex, hsame, hiff⟩ := recomputed_frame hp hreset hlearned
  refine healthy_of_noSkips hu hsizes (fun id hid => ?_) (fun id hid => ?_)
  · exact (hskips id (hindex ▸ hid)).same hsame
  · simpa only [hiff] using hresolves id (hindex ▸ hid)

theorem CleanRun.healthy (h : CleanRun env s) : Healthy env s := by
  induction h with
  | new config => exact new_healthy env config
  | @putWithId s kind bytes _ hkind id hlen ih =>
    unfold ValueStore.putWithId
    split
    · exact ih
    · rename_i hid
      refine ⟨ValueStore.insertNew_wf ih.wf env hid _, fun k hk => ?_⟩
      rcases (ValueStore.mem_index_insertNew env _).mp hk with rfl | hk
      · refine ⟨bytes, by omega, .cell ?_⟩
        rw [ValueStore.node, ValueStore.entryById_insertNew ih.wf, if_pos rfl]
        simp [ValueEntry.node, hkind]
      · obtain ⟨v, hv, hsound⟩ := ih.sound k hk
        exact ⟨v, hv, hsound.refine (insertNew_refines ih.wf hid _)⟩
  | putWithDelta _ hkind hlen hput ih =>
    exact ((putWithDelta_stored hkind hput).healthy ih (by omega)).1
  | setDeltaPolicy _ _ ih => exact ih.congr rfl rfl rfl
  | compactDeltas _ horder' hcompact ih =>
    obtain ⟨t, report, hrun, ht, -⟩ := compactDeltas_spec ih _ horder'
    rw [hrun] at hcompact
    cases hcompact
    exact ht
  | @get s _ id ih =>
    rw [get_snd]
    exact ih.congr rfl rfl rfl
  | enable _ _ ih => exact ih.congr rfl rfl rfl
  | @maybeRefresh s _ ih =>
    have hsame := ValueStore.maybeRefresh_same env s
    exact ih.congr hsame.entries hsame.entryIds hsame.index
  | @refreshLearnedIndex s _ ih =>
    have hsame := ValueStore.refreshLearnedIndex_same env s
    exact ih.congr hsame.entries hsame.entryIds hsame.index
  | @importTransferEntries s t es n h hfits himport ih =>
    have hsizes := (Reachable.importTransferEntries h.reachable hfits himport).sizes
    obtain ⟨r, p, q, u, hrun, hrec, hcases⟩ := importTransferEntries_spec env ih.wf es
    rw [hrun] at himport
    cases himport
    rcases hcases with ⟨-, -, rfl⟩ | ⟨-, -, hok, hskips⟩
    · exact ih
    · have hp := hrec.pushes.wf ih.wf
      refine recomputed_healthy hp hrec.reset hrec.learned hsizes (hskips ⟨n, rfl⟩) ?_
      exact (allResolve_iff hp hrec.look).mpr (hok.mp ⟨n, rfl⟩)
  | @loadStore config t es hfits hload =>
    have hsizes := (Reachable.loadStore hfits hload).sizes
    obtain ⟨p, q, hpush, hreset, hlearned, hresolves, hskips⟩ := loadStore_spec hload
    exact recomputed_healthy (hpush.wf (ValueStore.new_wf config)) hreset hlearned hsizes hskips
      hresolves

end Clean

end SkeinDB.Values
