import SkeinDB.Values.Fidelity
import SkeinDB.Values.Persistence

/-!
# Recorded delta depths

Every delta records the length of its base chain, which `put_with_delta` and the
compaction policy read instead of walking the chain. Loads and imports recompute it,
and `compact_deltas` does so while it rebuilds skip patches. With skip patches turned
off it rewrites deltas as cells and leaves the recorded depths of their descendants.
-/
namespace SkeinDB.Values
open SkeinDB.Codec SkeinDB.Format SkeinDB.Delta

section Chains
variable {env : Env} {s t : ValueStore}

/-- The number of base hops from an id to the first entry that is not a delta. -/
inductive Hops (s : ValueStore) : ValueId → ℕ → Prop
  | cell {id : ValueId} {entry : ValueEntry} (h : s.entryById id = some entry)
      (hkind : entry.kind ≠ .delta) : Hops s id 0
  | delta {id : ValueId} {entry : ValueEntry} {delta : DeltaEntry} {n : ℕ}
      (h : s.entryById id = some entry) (hkind : entry.kind = .delta)
      (hdelta : entry.delta = some delta) (hbase : Hops s delta.base n) : Hops s id (n + 1)

theorem Hops.functional {id : ValueId} {n m : ℕ} (hn : Hops s id n) (hm : Hops s id m) :
    n = m := by
  induction hn generalizing m with
  | cell h hkind =>
    cases hm with
    | cell => rfl
    | delta h' hkind' =>
      rw [h] at h'
      cases h'
      contradiction
  | delta h hkind hdelta _ ih =>
    cases hm with
    | cell h' hkind' =>
      rw [h] at h'
      cases h'
      contradiction
    | delta h' _ hdelta' hbase' =>
      rw [h] at h'
      cases h'
      rw [hdelta] at hdelta'
      cases hdelta'
      rw [ih hbase']

theorem ChainEnds.hops {n : ℕ} {id : ValueId} (h : ChainEnds env s n id) :
    ∃ k, k < n ∧ Hops s id k := by
  induction n generalizing id with
  | zero => exact h.elim
  | succ n ih =>
    obtain ⟨entry, hentry, hkind | ⟨delta, hkind, hdelta, hbase⟩⟩ := h.cases
    · exact ⟨0, by omega, .cell hentry hkind⟩
    · obtain ⟨k, hk, hhops⟩ := ih hbase
      exact ⟨k + 1, by omega, .delta hentry hkind hdelta hhops⟩

theorem Hops.chainEnds {id : ValueId} {n : ℕ} (h : Hops s id n) : ChainEnds env s (n + 1) id := by
  induction h with
  | cell h hkind => exact chainEnds_cell h hkind
  | delta h hkind hdelta _ ih => exact chainEnds_delta h hkind hdelta ih

theorem Hops.of_resolves {id : ValueId} {v : Bytes}
    (h : Resolves patchValue (s.node env) id v) : ∃ n, Hops s id n := by
  obtain ⟨n, hn⟩ := Resolves.grounded h
  obtain ⟨k, -, hk⟩ := ChainEnds.hops hn
  exact ⟨k, hk⟩

/-- A chain visits distinct stored ids, so the walk has fuel enough. -/
theorem Hops.lt_length (env : Env) (hs : s.WF) {id : ValueId} {n : ℕ} (h : Hops s id n) :
    n < s.entries.length := by
  have hends : ChainEnds env s (n + 1) id := h.chainEnds
  obtain ⟨k, hk, hhops⟩ := ChainEnds.hops (grounded_entries hs hends)
  rw [h.functional hhops]
  exact hk

/-- A recorded depth: the number of hops, saturated as the counter is. -/
def DepthIs (s : ValueStore) (id : ValueId) (depth : ℕ) : Prop :=
  ∃ n, Hops s id n ∧ depth = min n usizeMax

theorem chainLoop_of_hops {id : ValueId} {n acc fuel : ℕ} (h : Hops s id n) (hfuel : n < fuel)
    (hacc : acc ≤ usizeMax) :
    chainLoop s (fun depth _ => min (depth + 1) usizeMax) (fun depth _ => depth) fuel id acc =
      some (some (min (acc + n) usizeMax)) := by
  induction h generalizing acc fuel with
  | cell h hkind =>
    obtain ⟨fuel, rfl⟩ : ∃ k, fuel = k + 1 := ⟨fuel - 1, by omega⟩
    simp [chainLoop, h, hkind, hacc]
  | @delta id entry delta n h hkind hdelta _ ih =>
    obtain ⟨fuel, rfl⟩ : ∃ k, fuel = k + 1 := ⟨fuel - 1, by omega⟩
    simp only [chainLoop, h, hkind, ne_eq, not_true_eq_false, if_false, hdelta]
    rw [ih (by omega) (min_le_right _ _)]
    congr 2
    omega

theorem DepthIs.deltaChainDepth (env : Env) (hs : s.WF) {id : ValueId} {depth : ℕ}
    (h : DepthIs s id depth) : deltaChainDepth s id = some (some depth) := by
  obtain ⟨n, hn, rfl⟩ := h
  have hlt := hn.lt_length env hs
  rw [SkeinDB.Values.deltaChainDepth, chainLoop_of_hops hn (by omega) (Nat.zero_le _), Nat.zero_add]

end Chains

section Invariant
variable {env : Env} {s t : ValueStore}

/-- The recorded depth of an id, if it has one, is that of its chain. -/
def DepthAt (s : ValueStore) (id : ValueId) : Prop :=
  ∀ entry delta, s.entryById id = some entry → entry.delta = some delta → DepthIs s id delta.depth

/-- Every delta with a base has a value. -/
def DeltasResolve (env : Env) (s : ValueStore) : Prop :=
  ∀ id entry delta, s.entryById id = some entry → entry.kind = .delta →
    entry.delta = some delta → ∃ v, Resolves patchValue (s.node env) id v

/-- Every delta materializes along its chain and records the depth of it. -/
structure DepthInv (env : Env) (s : ValueStore) : Prop where
  wf : s.WF
  resolves : ∀ id entry delta, s.entryById id = some entry → entry.kind = .delta →
    entry.delta = some delta → ∃ v, Resolves patchValue (s.node env) id v
  depth : ∀ id, DepthAt s id

theorem Hops.congr (h : ∀ id, t.entryById id = s.entryById id) {id : ValueId} {n : ℕ}
    (hn : Hops s id n) : Hops t id n := by
  induction hn with
  | cell hentry hkind => exact .cell ((h _).trans hentry) hkind
  | delta hentry hkind hdelta _ ih => exact .delta ((h _).trans hentry) hkind hdelta ih

theorem DepthAt.congr (h : ∀ id, t.entryById id = s.entryById id) {id : ValueId}
    (hs : DepthAt s id) : DepthAt t id := by
  intro entry delta hentry hdelta
  rw [h] at hentry
  obtain ⟨n, hn, hdepth⟩ := hs entry delta hentry hdelta
  exact ⟨n, hn.congr h, hdepth⟩

theorem DepthInv.congr (h : DepthInv env s) (hwf : t.WF)
    (hlook : ∀ id, t.entryById id = s.entryById id) : DepthInv env t where
  wf := hwf
  resolves := by
    intro id entry delta hentry
    rw [node_congr hlook]
    exact h.resolves id entry delta ((hlook id).symm.trans hentry)
  depth := fun id => (h.depth id).congr hlook

theorem DepthInv.same (h : DepthInv env s) (hsame : ValueStore.SameContents s t) :
    DepthInv env t :=
  h.congr (hsame.wf h.wf) hsame.entryById

theorem new_depthInv (config : ValueStoreConfig) : DepthInv env (.new config) where
  wf := ValueStore.new_wf config
  resolves := by simp [ValueStore.new, ValueStore.entryById]
  depth := by simp [DepthAt, ValueStore.new, ValueStore.entryById]

end Invariant

section Writes
variable {env : Env} {s t : ValueStore}

theorem Hops.mem_index (hs : s.WF) {id : ValueId} {n : ℕ} (h : Hops s id n) : id ∈ s.index := by
  rw [← ValueStore.entryById_isSome hs]
  cases h with
  | cell h => simp [h]
  | delta h => simp [h]

theorem Hops.insertNew (hs : s.WF) {id k : ValueId} (hid : id ∉ s.index) (entry : ValueEntry)
    {n : ℕ} (h : Hops s k n) : Hops (s.insertNew env id entry) k n := by
  have hlook : ∀ j ∈ s.index, (s.insertNew env id entry).entryById j = s.entryById j := by
    intro j hj
    rw [ValueStore.entryById_insertNew hs, if_neg]
    rintro rfl
    exact hid hj
  induction h with
  | cell h hkind =>
    exact .cell ((hlook _ ((Hops.cell h hkind).mem_index hs)).trans h) hkind
  | delta h hkind hdelta hbase ih =>
    exact .delta ((hlook _ ((Hops.delta h hkind hdelta hbase).mem_index hs)).trans h) hkind
      hdelta ih

theorem DeltasResolve.insertNew (h : DeltasResolve env s) (hs : s.WF) {id : ValueId}
    (hid : id ∉ s.index) {entry : ValueEntry}
    (hnew : ∀ delta, entry.delta = some delta →
      ∃ v, Resolves patchValue ((s.insertNew env id entry).node env) id v) :
    DeltasResolve env (s.insertNew env id entry) := by
  intro k e delta hentry hkind hdelta
  rw [ValueStore.entryById_insertNew hs] at hentry
  split at hentry
  · rename_i hk
    subst hk
    cases hentry
    exact hnew delta hdelta
  · obtain ⟨v, hv⟩ := h k e delta hentry hkind hdelta
    exact ⟨v, hv.refine (insertNew_refines hs hid entry)⟩

theorem entryById_insertNew_self (hs : s.WF) (id : ValueId) (entry : ValueEntry) :
    (s.insertNew env id entry).entryById id = some entry := by
  rw [ValueStore.entryById_insertNew hs, if_pos rfl]

/-- A delta that is written over a base resolves to the bytes it was built for. -/
theorem resolves_insertDelta (hs : s.WF) (hsizes : Sizes s) {baseId : ValueId} {b bytes : Bytes}
    (hid : env.valueId bytes ∉ s.index) (hbase : Resolves patchValue (s.node env) baseId b)
    (hne : b ≠ bytes) (hlen : bytes.length < 2 ^ 63) (depth : ℕ) (skip : List SkipPatch) :
    Resolves patchValue ((s.insertNew env (env.valueId bytes) ⟨.delta, buildPatchBytes b bytes,
      some ⟨baseId, bytes.length, depth, skip⟩⟩).node env) (env.valueId bytes) bytes := by
  refine .delta (node_delta (entryById_insertNew_self hs _ _) rfl rfl)
    (hbase.refine (insertNew_refines hs hid _)) ?_ (by simp)
  exact patchValue_eq_some.mpr
    (applyPatchBytes_buildPatchBytes hne (hsizes.resolves hbase) (by omega))

/-- A new entry without delta data, or one that resolves with the depth of its chain. -/
theorem DepthInv.insertNew (h : DepthInv env s) {id : ValueId} (hid : id ∉ s.index)
    {entry : ValueEntry}
    (hnew : ∀ delta, entry.delta = some delta →
      (∃ v, Resolves patchValue ((s.insertNew env id entry).node env) id v) ∧
        DepthIs (s.insertNew env id entry) id delta.depth) :
    DepthInv env (s.insertNew env id entry) where
  wf := ValueStore.insertNew_wf h.wf env hid entry
  resolves := DeltasResolve.insertNew h.resolves h.wf hid fun delta hdelta => (hnew delta hdelta).1
  depth := by
    intro k e delta hentry hdelta
    rw [ValueStore.entryById_insertNew h.wf] at hentry
    split at hentry
    · rename_i hk
      subst hk
      cases hentry
      exact (hnew delta hdelta).2
    · obtain ⟨n, hn, hdepth⟩ := h.depth k e delta hentry hdelta
      exact ⟨n, hn.insertNew h.wf hid entry, hdepth⟩

theorem DepthInv.putWithId (h : DepthInv env s) (kind : ValueKind) (id : ValueId)
    (bytes : Bytes) : DepthInv env (s.putWithId env kind id bytes).1 := by
  unfold ValueStore.putWithId
  split
  · exact h
  · rename_i hid
    exact h.insertNew hid (by simp)

/-- What is recorded of a base: the depth of a delta, and nothing of a cell. -/
theorem recorded_depth {P : ℕ → ℕ → Prop} (hzero : P 0 0) {baseId : ValueId} {b : Bytes}
    (hbase : Resolves patchValue (s.node env) baseId b) {base : ValueEntry}
    (hentry : s.entryById baseId = some base)
    (h : ∀ delta, base.delta = some delta → ∃ n, Hops s baseId n ∧ P n delta.depth) :
    ∃ n, Hops s baseId n ∧ P n ((base.delta.map (·.depth)).getD 0) := by
  cases hdelta : base.delta with
  | some delta => exact h delta hdelta
  | none =>
    obtain ⟨n, hn⟩ := Hops.of_resolves hbase
    cases hn with
    | cell h' hkind => exact ⟨0, .cell h' hkind, hzero⟩
    | delta h' _ hdelta' =>
      rw [hentry] at h'
      cases h'
      simp [hdelta] at hdelta'

theorem DepthInv.putWithDelta (h : DepthInv env s) (hsizes : Sizes s) {kind : ValueKind}
    {bytes : Bytes} {base : Option ValueId} {id : ValueId} (hlen : bytes.length < 2 ^ 63)
    (hput : putWithDelta env s kind bytes base = some (t, id)) : DepthInv env t := by
  obtain hput | ⟨hid, rfl, baseId, b, depth, skip, hbase, hne, ⟨baseEntry, hentry, rfl⟩, -, rfl⟩ :=
    putWithDelta_cases hput
  · have hinv : DepthInv env (s.put env kind bytes).1 :=
      h.putWithId kind (env.valueId bytes) bytes
    rwa [hput] at hinv
  · refine h.insertNew hid ?_
    intro delta hdelta
    cases hdelta
    refine ⟨⟨bytes, resolves_insertDelta h.wf hsizes hid hbase hne hlen _ _⟩, ?_⟩
    obtain ⟨n, hn, hdepth⟩ := recorded_depth (P := fun n depth => depth = min n usizeMax) rfl hbase
      hentry fun delta hdelta => h.depth baseId baseEntry delta hentry hdelta
    refine ⟨n + 1, .delta (entryById_insertNew_self h.wf _ _) rfl rfl (hn.insertNew h.wf hid _), ?_⟩
    simp only [hdepth]
    omega

end Writes

section Loads
variable {env : Env} {s t : ValueStore}

theorem plain_inj {e e' : ValueEntry} (h : e.plain = e'.plain) :
    e.kind = e'.kind ∧ e.delta.map (·.base) = e'.delta.map (·.base) := by
  simp only [ValueEntry.plain, ValueEntry.mk.injEq] at h
  refine ⟨h.1, ?_⟩
  simpa [Function.comp_def] using congrArg (Option.map (·.base)) h.2.2

theorem Reset.entry (h : Reset s t) {id : ValueId} {entry : ValueEntry}
    (hentry : s.entryById id = some entry) :
    ∃ e, t.entryById id = some e ∧ e.kind = entry.kind ∧
      e.delta.map (·.base) = entry.delta.map (·.base) := by
  have hmap := h.entryById id
  rw [hentry, Option.map_some] at hmap
  obtain ⟨e, he, hplain⟩ := Option.map_eq_some_iff.mp hmap
  exact ⟨e, he, plain_inj hplain⟩

theorem Reset.symm (h : Reset s t) : Reset t s := by
  refine ⟨?_, h.plain.symm⟩
  rw [h.shape]

/-- Depths and skip patches are no part of a chain. -/
theorem Hops.reset (h : Reset s t) {id : ValueId} {n : ℕ} (hn : Hops s id n) : Hops t id n := by
  induction hn with
  | cell hentry hkind =>
    obtain ⟨e, he, hk, -⟩ := h.entry hentry
    exact .cell he (hk ▸ hkind)
  | delta hentry hkind hdelta _ ih =>
    obtain ⟨e, he, hk, hbase⟩ := h.entry hentry
    rw [hdelta, Option.map_some] at hbase
    obtain ⟨d, hd, hdbase⟩ := Option.map_eq_some_iff.mp hbase
    rw [← hdbase] at ih
    exact .delta he (hk.trans hkind) hd ih

theorem DepthIs.reset (h : Reset s t) {id : ValueId} {depth : ℕ} (hd : DepthIs s id depth) :
    DepthIs t id depth := by
  obtain ⟨n, hn, hdepth⟩ := hd
  exact ⟨n, hn.reset h, hdepth⟩

/-- A memo of depths. -/
def MemoDepths (s : ValueStore) (memo : Memo) : Prop :=
  ∀ id depth, memo id = some depth → DepthIs s id depth

theorem rebuildLoadedDeltaDepth_depth {fuel depth : ℕ} {id : ValueId} {memo memo' : Memo}
    {visiting : List ValueId} (hmemo : MemoDepths s memo)
    (h : s.rebuildLoadedDeltaDepth fuel id memo visiting = some (.ok (depth, memo'))) :
    DepthIs s id depth ∧ MemoDepths s memo' :=
  rebuildLoadedDeltaDepth_holds (P := DepthIs s)
    (fun hentry hkind => ⟨0, .cell hentry hkind, by simp⟩)
    (fun hentry hkind hdelta ⟨n, hn, _⟩ => ⟨n + 1, .delta hentry hkind hdelta hn, by omega⟩) hmemo h

theorem resetDelta_depthAt (hs : s.WF) {id : ValueId} {entry : ValueEntry}
    (h : s.entryById id = some entry) {depth : ℕ} (hdepth : DepthIs s id depth) {k : ValueId}
    (hk : k = id ∨ DepthAt s k) : DepthAt (s.resetDelta id depth) k := by
  have hreset := resetDelta_reset h depth
  obtain ⟨idx, hidx, -, heq⟩ := resetDelta_eq h depth
  intro e d he hd
  rw [heq, ValueStore.entryById_set hs hidx] at he
  split at he
  · rename_i hki
    subst hki
    cases he
    obtain ⟨d', -, rfl⟩ := Option.map_eq_some_iff.mp hd
    exact hdepth.reset hreset
  · rename_i hne
    exact (hk.resolve_left hne e d he hd).reset hreset

theorem depthLoop_depths (hs : s.WF) {memo : Memo} (hmemo : MemoDepths s memo)
    {ids : List ValueId} (h : s.depthLoop ids memo = some (.ok (), t)) :
    Reset s t ∧ ∀ id, id ∈ ids ∨ DepthAt s id → DepthAt t id := by
  induction ids generalizing s memo with
  | nil =>
    cases h
    exact ⟨.refl _, by simp⟩
  | cons id ids ih =>
    rw [ValueStore.depthLoop] at h
    split at h
    · cases h
    · cases h
    rename_i depth memo1 hrun
    obtain ⟨hdepth, hmemo1⟩ := rebuildLoadedDeltaDepth_depth hmemo hrun
    obtain ⟨entry, hentry⟩ : ∃ entry, s.entryById id = some entry := by
      obtain ⟨n, hn, -⟩ := hdepth
      exact Option.isSome_iff_exists.mp ((ValueStore.entryById_isSome hs).mpr (hn.mem_index hs))
    have hreset := resetDelta_reset hentry depth
    obtain ⟨hrest, hall⟩ := ih (hreset.wf hs) (fun k d hk => (hmemo1 k d hk).reset hreset) h
    refine ⟨hreset.trans hrest, ?_⟩
    intro k hk
    rw [List.mem_cons, or_assoc] at hk
    apply hall
    rcases hk with hk | hk | hk
    · exact .inr (resetDelta_depthAt hs hentry hdepth (.inl hk))
    · exact .inl hk
    · exact .inr (resetDelta_depthAt hs hentry hdepth (.inr hk))

/-- Recomputed metadata is right, whatever was recorded before. -/
theorem recompute_depthInv (hs : s.WF) (h : s.recomputeLoadedDeltaMetadata env = some (.ok (), t)) :
    DepthInv env t := by
  obtain ⟨r, _, _, hrec, -, -, hok, -⟩ := recompute_spec env hs
  rw [h] at hrec
  cases hrec
  have hresolves := hok.mp rfl
  unfold ValueStore.recomputeLoadedDeltaMetadata at h
  split at h
  · cases h
  · cases h
  rename_i u hloop
  split at h
  · cases h
  · cases h
  obtain ⟨hreset, hdepths⟩ := depthLoop_depths hs (fun _ _ hk => by cases hk) hloop
  have hu : DepthInv env u := by
    refine ⟨hreset.wf hs, ?_, ?_⟩
    · intro id entry delta hentry _ _
      have hid : id ∈ u.index := by
        rw [← ValueStore.entryById_isSome (hreset.wf hs), hentry]
        rfl
      rw [hreset.shape] at hid
      obtain ⟨v, hv⟩ := hresolves id hid
      exact ⟨v, hreset.resolves.mpr hv⟩
    · intro id entry delta hentry hdelta
      have hid : id ∈ u.index := by
        rw [← ValueStore.entryById_isSome (hreset.wf hs), hentry]
        rfl
      rw [hreset.shape] at hid
      exact hdepths id (.inl ((ValueStore.mem_index_iff hs).mp hid)) entry delta hentry hdelta
  cases h
  split
  · exact hu.same (ValueStore.refreshLearnedIndex_same env u)
  · exact hu

/-- A successful import finds nothing to insert, or computes every depth anew. -/
theorem importTransferEntries_depthInv (hs : s.WF) {es : List ValueSegmentEntry} {n : ℕ}
    (himport : s.importTransferEntries env es = some (.ok n, t)) : t = s ∨ DepthInv env t := by
  obtain ⟨m, p, hloop, hpush, -, hcount⟩ := importLoop_spec hs 0 es
  simp only [ValueStore.importTransferEntries, hloop] at himport
  rcases hcount with ⟨rfl, rfl, -⟩ | ⟨hm, -⟩
  · cases himport
    exact .inl rfl
  · rw [if_pos hm] at himport
    split at himport
    · cases himport
    · cases himport
    · rename_i u hrec
      cases himport
      exact .inr (recompute_depthInv (hpush.wf hs) hrec)

theorem DepthInv.importTransferEntries (h : DepthInv env s) {es : List ValueSegmentEntry} {n : ℕ}
    (himport : s.importTransferEntries env es = some (.ok n, t)) : DepthInv env t := by
  rcases importTransferEntries_depthInv h.wf himport with rfl | ht
  · exact h
  · exact ht

theorem loadStore_depthInv {config : ValueStoreConfig} {es : List ValueSegmentEntry}
    (hload : ValueStore.loadStore env config es = some (.ok t)) : DepthInv env t := by
  unfold ValueStore.loadStore at hload
  split at hload
  · cases hload
  rename_i p hloop
  split at hload
  · cases hload
  · cases hload
  · rename_i u hrec
    cases hload
    exact recompute_depthInv ((loadLoop_pushes hloop).wf (ValueStore.new_wf config)) hrec

end Loads

section Compaction
variable {env : Env} {s t : ValueStore}

/-- A delta that the current policy no longer allows at its recorded depth. -/
def Refused (s : ValueStore) (id : ValueId) : Prop :=
  ∃ entry delta, s.entryById id = some entry ∧ entry.kind = .delta ∧ entry.delta = some delta ∧
    s.config.deltaPolicy.refusesDepth delta.depth

/-- No allowed delta has a refused one as its base. -/
def SparesBases (s : ValueStore) : Prop :=
  ∀ id entry delta, s.entryById id = some entry → entry.kind = .delta →
    entry.delta = some delta → Refused s delta.base → Refused s id

theorem mem_rewriteIds {order : Order} (horder : order.Perm s.index.entries) {id : ValueId} :
    id ∈ rewriteIds s order ↔ Refused s id := by
  have hlook {idx : ℕ} : ⟨id, idx⟩ ∈ order ↔ s.index.lookup id = some idx := by
    rw [horder.mem_iff]
    exact AList.mem_lookup_iff.symm
  simp only [rewriteIds, List.mem_filterMap, Refused, ValueStore.entryById]
  constructor
  · rintro ⟨⟨k, idx⟩, hp, h⟩
    split at h
    · cases h
    rename_i entry hget
    split at h
    · cases h
    rename_i hkind
    split at h
    · cases h
    rename_i delta hdelta
    split_ifs at h with hrefused
    cases h
    exact ⟨entry, delta, by simp [hlook.mp hp, hget], not_not.mp hkind, hdelta, hrefused⟩
  · rintro ⟨entry, delta, hentry, hkind, hdelta, hrefused⟩
    obtain ⟨idx, hidx, hget⟩ := Option.bind_eq_some_iff.mp hentry
    exact ⟨⟨id, idx⟩, hlook.mpr hidx, by simp [hget, hkind, hdelta, hrefused]⟩

theorem rewriteStep_cell (hs : s.WF) {id : ValueId} {v : Bytes}
    (hv : Resolves patchValue (s.node env) id v) {report report' : DeltaCompactionReport}
    (h : rewriteStep env (s, report) id = some (t, report')) :
    ∃ idx, s.index.lookup id = some idx ∧
      t = { s with entries := s.entries.set idx ⟨.cell, v, none⟩ } := by
  obtain ⟨trace, hmat⟩ := (materializeInternal_iff hs).mpr hv
  obtain ⟨idx, hidx⟩ := Option.isSome_iff_exists.mp
    (AList.lookup_isSome.mpr (mem_index_of_resolves hs hv))
  have hlt : idx < s.entries.length := by
    rw [← hs.lengths]
    exact (List.getElem?_eq_some_iff.mp ((hs.lookup id idx).mp hidx)).1
  obtain ⟨chain, -, h⟩ := Option.bind_eq_some_iff.mp h
  simp only [hmat, Option.bind_eq_bind, Option.bind_some, hidx, hlt, if_true] at h
  cases h
  exact ⟨idx, hidx, rfl⟩

/-- Replacing an id by its own value keeps every value. -/
theorem set_cell_resolves (hs : s.WF) {id : ValueId} {idx : ℕ}
    (hidx : s.index.lookup id = some idx) {v : Bytes}
    (hv : Resolves patchValue (s.node env) id v) {k : ValueId} {w : Bytes}
    (hk : Resolves patchValue (s.node env) k w) :
    Resolves patchValue
      (({ s with entries := s.entries.set idx ⟨.cell, v, none⟩ } : ValueStore).node env) k w := by
  have hlook := ValueStore.entryById_set hs hidx ⟨.cell, v, none⟩
  refine hk.refine fun j n hn => ?_
  by_cases hj : j = id
  · subst hj
    exact .inr ⟨v, node_cell (by rw [hlook, if_pos rfl]) (by simp), hv⟩
  · left
    rw [ValueStore.node, hlook, if_neg hj]
    exact hn

/-- The rewriting of resolving ids: they become cells, and nothing else changes. -/
structure Flattened (env : Env) (ids : List ValueId) (s t : ValueStore) : Prop where
  wf : t.WF
  same : SameIndex s t
  resolves : ∀ k v, Resolves patchValue (s.node env) k v → Resolves patchValue (t.node env) k v
  cells : ∀ k ∈ ids, ∃ bytes, t.entryById k = some ⟨.cell, bytes, none⟩
  others : ∀ k, k ∉ ids → t.entryById k = s.entryById k

theorem rewrite_run_flattened {ids : List ValueId} (hs : s.WF)
    (hids : ∀ id ∈ ids, ∃ v, Resolves patchValue (s.node env) id v)
    {report report' : DeltaCompactionReport}
    (h : ids.foldlM (rewriteStep env) (s, report) = some (t, report')) :
    Flattened env ids s t := by
  induction ids generalizing s report with
  | nil =>
    cases h
    exact ⟨hs, ⟨rfl, rfl⟩, fun _ _ => id, by simp, fun _ _ => rfl⟩
  | cons id ids ih =>
    rw [List.foldlM_cons] at h
    obtain ⟨⟨u, report1⟩, hstep, hrest⟩ := Option.bind_eq_some_iff.mp h
    obtain ⟨v, hv⟩ := hids id (by simp)
    obtain ⟨idx, hidx, rfl⟩ := rewriteStep_cell hs hv hstep
    have hlook := ValueStore.entryById_set hs hidx ⟨.cell, v, none⟩
    have hkeep : ∀ k w, Resolves patchValue (s.node env) k w → Resolves patchValue
        (({ s with entries := s.entries.set idx ⟨.cell, v, none⟩ } : ValueStore).node env) k w :=
      fun k w => set_cell_resolves hs hidx hv
    have hflat := ih (ValueStore.set_wf hs idx _) (fun k hk => by
      obtain ⟨w, hw⟩ := hids k (by simp [hk])
      exact ⟨w, hkeep k w hw⟩) hrest
    refine ⟨hflat.wf, ⟨hflat.same.index, hflat.same.config⟩,
      fun k w hk => hflat.resolves k w (hkeep k w hk), ?_, ?_⟩
    · intro k hk
      by_cases hmem : k ∈ ids
      · exact hflat.cells k hmem
      · obtain rfl : k = id := by simpa [hmem] using hk
        exact ⟨v, by rw [hflat.others k hmem, hlook, if_pos rfl]⟩
    · intro k hk
      rw [List.mem_cons, not_or] at hk
      rw [hflat.others k hk.2, hlook, if_neg hk.1]

theorem skipUpdates_mem {order : Order} {report report' : DeltaCompactionReport}
    {updates : List (ValueId × ℕ × List SkipPatch)}
    (h : skipUpdates env s order report = some (updates, report')) :
    (∀ p ∈ order, ∃ r, skipUpdate env s p = some r ∧ ∀ update, r = some update → update ∈ updates) ∧
      ∀ update ∈ updates, ∃ p ∈ order, skipUpdate env s p = some (some update) := by
  induction order generalizing report updates with
  | nil =>
    cases h
    simp
  | cons p ps ih =>
    rw [skipUpdates] at h
    obtain ⟨r, hr, h⟩ := Option.bind_eq_some_iff.mp h
    cases r with
    | none =>
      obtain ⟨hall, hfrom⟩ := ih h
      constructor
      · intro q hq
        rcases List.mem_cons.mp hq with rfl | hq
        · exact ⟨none, hr, by simp⟩
        · exact hall q hq
      · intro update hupdate
        obtain ⟨q, hq, hrun⟩ := hfrom update hupdate
        exact ⟨q, by simp [hq], hrun⟩
    | some first =>
      obtain ⟨chain, -, h⟩ := Option.bind_eq_some_iff.mp h
      obtain ⟨⟨rest, report1⟩, hrest, h⟩ := Option.bind_eq_some_iff.mp h
      cases h
      obtain ⟨hall, hfrom⟩ := ih hrest
      constructor
      · intro q hq
        rcases List.mem_cons.mp hq with rfl | hq
        · exact ⟨some first, hr, by simp⟩
        · obtain ⟨r, hrun, hmem⟩ := hall q hq
          exact ⟨r, hrun, fun update hupdate => by simp [hmem update hupdate]⟩
      · intro update hupdate
        rcases List.mem_cons.mp hupdate with rfl | hupdate
        · exact ⟨p, by simp, hr⟩
        · obtain ⟨q, hq, hrun⟩ := hfrom update hupdate
          exact ⟨q, by simp [hq], hrun⟩

/-- An update carries the depth of the chain of its id. -/
theorem skipUpdate_depth {id : ValueId} {idx : ℕ} {update : ValueId × ℕ × List SkipPatch}
    (h : skipUpdate env s ⟨id, idx⟩ = some (some update)) :
    update.1 = id ∧ deltaChainDepth s id = some (some update.2.1) := by
  unfold skipUpdate at h
  split at h
  · cases h
  split at h
  · cases h
  split at h
  · cases h
  obtain ⟨depth, hdepth, h⟩ := Option.bind_eq_some_iff.mp h
  cases depth with
  | none => cases h
  | some depth =>
    obtain ⟨result, -, h⟩ := Option.bind_eq_some_iff.mp h
    cases result with
    | error e => cases h
    | ok r =>
      obtain ⟨skip, -, h⟩ := Option.bind_eq_some_iff.mp h
      cases h
      exact ⟨rfl, hdepth⟩

/-- A delta that resolves is updated. -/
theorem skipUpdate_isSome (hs : s.WF) {id : ValueId} {idx : ℕ}
    (hidx : s.index.lookup id = some idx) {entry : ValueEntry} {delta : DeltaEntry}
    (hentry : s.entryById id = some entry) (hkind : entry.kind = .delta)
    (hdelta : entry.delta = some delta) {v : Bytes} (hv : Resolves patchValue (s.node env) id v)
    {r : Option (ValueId × ℕ × List SkipPatch)} (h : skipUpdate env s ⟨id, idx⟩ = some r) :
    r.isSome := by
  obtain ⟨trace, hmat⟩ := (materializeInternal_iff hs).mpr hv
  obtain ⟨n, hn⟩ := Hops.of_resolves hv
  have hdepth := DepthIs.deltaChainDepth env hs ⟨n, hn, rfl⟩
  have hget : s.entries[idx]? = some entry := by
    simpa [ValueStore.entryById, hidx] using hentry
  simp only [skipUpdate, hget, hkind, ne_eq, not_true_eq_false, if_false, hdelta, hdepth, hmat,
    Option.bind_eq_bind, Option.bind_some] at h
  obtain ⟨skip, -, h⟩ := Option.bind_eq_some_iff.mp h
  cases h
  rfl

theorem applySkipUpdate_reset (hs : s.WF) (report : DeltaCompactionReport)
    (update : ValueId × ℕ × List SkipPatch) :
    Reset s (applySkipUpdate (s, report) update).1 ∧
      (∀ k, k ≠ update.1 → (applySkipUpdate (s, report) update).1.entryById k = s.entryById k) ∧
      ∀ entry delta, (applySkipUpdate (s, report) update).1.entryById update.1 = some entry →
        entry.delta = some delta → delta.depth = update.2.1 := by
  obtain ⟨id, depth, skip⟩ := update
  simp only [applySkipUpdate]
  split
  · rename_i hnone
    exact ⟨.refl s, fun _ _ => rfl, by simp [ValueStore.entryById, hnone]⟩
  rename_i idx hidx
  split
  · rename_i hget
    exact ⟨.refl s, fun _ _ => rfl, by simp [ValueStore.entryById, hidx, hget]⟩
  rename_i entry hget
  split
  · rename_i hdelta
    refine ⟨.refl s, fun _ _ => rfl, ?_⟩
    intro e d he hd
    simp only [ValueStore.entryById, hidx, Option.bind_some, hget, Option.some.injEq] at he
    rw [← he, hdelta] at hd
    cases hd
  · rename_i delta hdelta
    have hlook := ValueStore.entryById_set hs hidx
      { entry with delta := some { delta with depth := depth, skip := skip } }
    refine ⟨reset_set hget (by simp [ValueEntry.plain, hdelta]), ?_, ?_⟩
    · intro k hk
      rw [hlook, if_neg hk]
    · intro e d he hd
      rw [hlook, if_pos rfl] at he
      cases he
      cases hd
      rfl

theorem applySkipUpdates_reset (updates : List (ValueId × ℕ × List SkipPatch)) (hs : s.WF)
    (report : DeltaCompactionReport) :
    Reset s (updates.foldl applySkipUpdate (s, report)).1 ∧
      ∀ k entry delta, (updates.foldl applySkipUpdate (s, report)).1.entryById k = some entry →
        entry.delta = some delta →
        (∃ update ∈ updates, update.1 = k ∧ delta.depth = update.2.1) ∨
          (∀ update ∈ updates, update.1 ≠ k) ∧ s.entryById k = some entry := by
  induction updates generalizing s report with
  | nil => exact ⟨.refl s, fun k entry delta hentry _ => .inr ⟨by simp, hentry⟩⟩
  | cons update updates ih =>
    obtain ⟨hreset, hother, hself⟩ := applySkipUpdate_reset hs report update
    rw [List.foldl_cons]
    generalize applySkipUpdate (s, report) update = next at *
    obtain ⟨u, report1⟩ := next
    obtain ⟨hrest, hall⟩ := ih (hreset.wf hs) report1
    refine ⟨hreset.trans hrest, ?_⟩
    intro k entry delta hentry hdelta
    rcases hall k entry delta hentry hdelta with ⟨w, hw, hk, hdepth⟩ | ⟨hnone, hu⟩
    · exact .inl ⟨w, by simp [hw], hk, hdepth⟩
    · by_cases hk : update.1 = k
      · subst hk
        exact .inl ⟨update, by simp, rfl, hself entry delta hu hdelta⟩
      · refine .inr ⟨by simpa [hk] using hnone, ?_⟩
        rw [← hother k (Ne.symm hk)]
        exact hu

/-- Rebuilding skip patches records the depth of every chain anew. -/
theorem rebuilt_depthInv (hs : s.WF)
    (hresolves : ∀ id entry delta, s.entryById id = some entry → entry.kind = .delta →
      entry.delta = some delta → ∃ v, Resolves patchValue (s.node env) id v)
    (hcells : ∀ id entry, s.entryById id = some entry → entry.kind ≠ .delta → DepthAt s id)
    {order' : Order} (horder' : order'.Perm s.index.entries)
    {updates : List (ValueId × ℕ × List SkipPatch)} {report report' : DeltaCompactionReport}
    (h : skipUpdates env s order' report = some (updates, report')) :
    DepthInv env (updates.foldl applySkipUpdate (s, report')).1 := by
  obtain ⟨hreset, hfold⟩ := applySkipUpdates_reset updates hs report'
  generalize (updates.foldl applySkipUpdate (s, report')).1 = u at *
  obtain ⟨hall, hfrom⟩ := skipUpdates_mem h
  have hlook {id : ValueId} {idx : ℕ} : ⟨id, idx⟩ ∈ order' ↔ s.index.lookup id = some idx := by
    rw [horder'.mem_iff]
    exact AList.mem_lookup_iff.symm
  refine ⟨hreset.wf hs, ?_, ?_⟩
  · intro id entry delta hentry hkind hdelta
    obtain ⟨e, he, hk, hbase⟩ := hreset.symm.entry hentry
    obtain ⟨d, hd, -⟩ := Option.map_eq_some_iff.mp (hbase.trans (by rw [hdelta]; rfl))
    obtain ⟨v, hv⟩ := hresolves id e d he (hk.trans hkind) hd
    exact ⟨v, hreset.resolves.mpr hv⟩
  · intro id entry delta hentry hdelta
    apply DepthIs.reset hreset
    obtain ⟨e, he, hk, hbase⟩ := hreset.symm.entry hentry
    obtain ⟨d, hd, -⟩ := Option.map_eq_some_iff.mp (hbase.trans (by rw [hdelta]; rfl))
    obtain ⟨idx, hidx⟩ : ∃ idx, s.index.lookup id = some idx := by
      obtain ⟨idx, hidx, -⟩ := Option.bind_eq_some_iff.mp he
      exact ⟨idx, hidx⟩
    obtain ⟨n, hn⟩ : ∃ n, Hops s id n := by
      by_cases hkind : e.kind = .delta
      · obtain ⟨v, hv⟩ := hresolves id e d he hkind hd
        exact Hops.of_resolves hv
      · exact ⟨0, .cell he hkind⟩
    rcases hfold id entry delta hentry hdelta with ⟨update, hupdate, rfl, hdepth⟩ | ⟨hnone, hsame⟩
    · obtain ⟨⟨k, kidx⟩, -, hrun⟩ := hfrom update hupdate
      obtain ⟨rfl, hchain⟩ := skipUpdate_depth hrun
      rw [DepthIs.deltaChainDepth env hs ⟨n, hn, rfl⟩] at hchain
      exact ⟨n, hn, by simpa [hdepth] using hchain.symm⟩
    · by_cases hkind : e.kind = .delta
      · obtain ⟨v, hv⟩ := hresolves id e d he hkind hd
        obtain ⟨r, hrun, hmem⟩ := hall ⟨id, idx⟩ (hlook.mpr hidx)
        obtain ⟨update, rfl⟩ := Option.isSome_iff_exists.mp
          (skipUpdate_isSome hs hidx he hkind hd hv hrun)
        exact absurd (skipUpdate_depth hrun).1 (hnone update (hmem update rfl))
      · exact hcells id e he hkind entry delta hsame hdelta

section Rewritten
variable {order order' : Order} {report : DeltaCompactionReport} {ids : List ValueId}

theorem Flattened.delta (h : Flattened env ids s t) {id : ValueId} {entry : ValueEntry}
    {delta : DeltaEntry} (hentry : t.entryById id = some entry) (hdelta : entry.delta = some delta) :
    id ∉ ids ∧ s.entryById id = some entry := by
  have hid : id ∉ ids := by
    intro hmem
    obtain ⟨bytes, hcell⟩ := h.cells id hmem
    rw [hcell] at hentry
    cases hentry
    cases hdelta
  exact ⟨hid, (h.others id hid).symm.trans hentry⟩

theorem Flattened.resolves_delta (h : Flattened env ids s t)
    (hs : ∀ id entry delta, s.entryById id = some entry → entry.kind = .delta →
      entry.delta = some delta → ∃ v, Resolves patchValue (s.node env) id v) :
    ∀ id entry delta, t.entryById id = some entry → entry.kind = .delta →
      entry.delta = some delta → ∃ v, Resolves patchValue (t.node env) id v := by
  intro id entry delta hentry hkind hdelta
  obtain ⟨v, hv⟩ := hs id entry delta (h.delta hentry hdelta).2 hkind hdelta
  exact ⟨v, h.resolves id v hv⟩

/-- A chain without refused deltas is left alone. -/
theorem Hops.flattened (h : Flattened env ids s t) (hids : ∀ id, id ∈ ids ↔ Refused s id)
    (hspares : SparesBases s) {id : ValueId} {n : ℕ} (hn : Hops s id n) (hid : ¬ Refused s id) :
    Hops t id n := by
  induction hn with
  | cell hentry hkind =>
    exact .cell ((h.others _ (mt (hids _).mp hid)).trans hentry) hkind
  | delta hentry hkind hdelta _ ih =>
    exact .delta ((h.others _ (mt (hids _).mp hid)).trans hentry) hkind hdelta
      (ih (mt (hspares _ _ _ hentry hkind hdelta) hid))

theorem DepthInv.flattened (hs : DepthInv env s) (h : Flattened env ids s t)
    (hids : ∀ id, id ∈ ids ↔ Refused s id) (hspares : SparesBases s) : DepthInv env t where
  wf := h.wf
  resolves := h.resolves_delta hs.resolves
  depth := by
    intro id entry delta hentry hdelta
    obtain ⟨hid, hentry⟩ := h.delta hentry hdelta
    obtain ⟨n, hn, hdepth⟩ := hs.depth id entry delta hentry hdelta
    exact ⟨n, hn.flattened h hids hspares (mt (hids id).mpr hid), hdepth⟩

/-- A delta left above a rewritten base is now one hop from a cell, and records two or more. -/
theorem Flattened.sparesBases (h : Flattened env ids s t) (hids : ∀ id, id ∈ ids ↔ Refused s id)
    (hs : DepthInv env s) (ht : DepthInv env t) : SparesBases s := by
  intro id entry delta hentry hkind hdelta hbase
  by_contra hid
  have hentry' : t.entryById id = some entry := (h.others id (mt (hids id).mp hid)).trans hentry
  obtain ⟨bytes, hcell⟩ := h.cells delta.base ((hids _).mpr hbase)
  have hone : Hops t id 1 := .delta hentry' hkind hdelta (.cell hcell (by simp))
  obtain ⟨n, hn, hdepth⟩ := ht.depth id entry delta hentry' hdelta
  obtain rfl := hn.functional hone
  obtain ⟨m, hm, hdepth'⟩ := hs.depth id entry delta hentry hdelta
  cases hm with
  | cell h' hkind' =>
    rw [hentry] at h'
    cases h'
    contradiction
  | delta h' _ hdelta' hbase' =>
    rw [hentry] at h'
    cases h'
    rw [hdelta] at hdelta'
    cases hdelta'
    obtain ⟨e, d, he, hek, -⟩ := hbase
    cases hbase' with
    | cell h'' hkind'' =>
      rw [he] at h''
      cases h''
      contradiction
    | delta =>
      rw [hdepth] at hdepth'
      simp only [usizeMax] at hdepth'
      omega

/-- What compaction does to a store with right depths. -/
theorem compactDeltas_depthInv_iff (h : DepthInv env s) (horder : order.Perm s.index.entries)
    (horder' : order'.Perm s.index.entries)
    (hcompact : compactDeltas env s order order' = some (t, report)) :
    DepthInv env t ↔ 0 < s.config.deltaPolicy.maxSkip ∨ SparesBases s := by
  obtain ⟨⟨u, report1⟩, hrewrite, hrest⟩ := Option.bind_eq_some_iff.mp hcompact
  have hids (id : ValueId) : id ∈ rewriteIds s order ↔ Refused s id := mem_rewriteIds horder
  have hflat : Flattened env (rewriteIds s order) s u := by
    refine rewrite_run_flattened h.wf ?_ hrewrite
    intro id hid
    obtain ⟨entry, delta, hentry, hkind, hdelta, -⟩ := (hids id).mp hid
    exact h.resolves id entry delta hentry hkind hdelta
  simp only [hflat.same.config] at hrest
  split at hrest
  · rename_i hskip
    simp only [hskip, true_or, iff_true]
    obtain ⟨⟨updates, report2⟩, hupdates, hrest⟩ := Option.bind_eq_some_iff.mp hrest
    have hinv := rebuilt_depthInv hflat.wf (hflat.resolves_delta h.resolves) ?_
      (hflat.same.index ▸ horder') hupdates
    · rw [Option.some.injEq] at hrest
      dsimp only at hrest
      rwa [hrest] at hinv
    · intro id entry hentry hkind e delta he hdelta
      obtain rfl : entry = e := Option.some.inj (hentry.symm.trans he)
      obtain ⟨n, hn, hdepth⟩ := h.depth id entry delta (hflat.delta hentry hdelta).2 hdelta
      cases hn with
      | cell => exact ⟨0, .cell hentry hkind, hdepth⟩
      | delta h' hkind' =>
        rw [(hflat.delta hentry hdelta).2] at h'
        cases h'
        contradiction
  · rename_i hskip
    cases hrest
    simp only [hskip, false_or]
    exact ⟨hflat.sparesBases hids h, h.flattened hflat hids⟩

end Rewritten

end Compaction

section Runs

inductive StoreOp
  | put (kind : ValueKind) (bytes : Bytes)
  | putWithDelta (kind : ValueKind) (bytes : Bytes) (base : Option ValueId)
  | setDeltaPolicy (policy : DeltaPolicy)
  | compactDeltas (order order' : Order)
  | importTransferEntries (entries : List ValueSegmentEntry)
  | loadStore (config : ValueStoreConfig) (entries : List ValueSegmentEntry)

/-- The store after an operation. A compaction may visit the index in any order; an import or a
load that fails ends the run. -/
def StoreOp.apply (env : Env) (s : ValueStore) : StoreOp → Option ValueStore
  | .put kind bytes => some (s.put env kind bytes).1
  | .putWithDelta kind bytes base => (SkeinDB.Values.putWithDelta env s kind bytes base).map (·.1)
  | .setDeltaPolicy policy => some (s.setDeltaPolicy policy)
  | .compactDeltas order order' =>
    if order.Perm s.index.entries ∧ order'.Perm s.index.entries then
      (SkeinDB.Values.compactDeltas env s order order').map (·.1)
    else none
  | .importTransferEntries entries =>
    match s.importTransferEntries env entries with
    | some (.ok _, t) => some t
    | _ => none
  | .loadStore config entries =>
    match ValueStore.loadStore env config entries with
    | some (.ok t) => some t
    | _ => none

def runOps (env : Env) (s : ValueStore) : List StoreOp → Option ValueStore
  | [] => some s
  | op :: ops => (op.apply env s).bind fun t => runOps env t ops

/-- The byte strings of an operation are in memory. -/
def StoreOp.Fits : StoreOp → Prop
  | .put _ bytes | .putWithDelta _ bytes _ => bytes.length < 2 ^ 63
  | .importTransferEntries entries | .loadStore _ entries => ∀ e ∈ entries, e.entry.Fits
  | .setDeltaPolicy _ | .compactDeltas .. => True

/-- A compaction that rebuilds skip patches, or rewrites no base of a delta it leaves. -/
def StoreOp.Sparing (s : ValueStore) : StoreOp → Prop
  | .compactDeltas .. => 0 < s.config.deltaPolicy.maxSkip ∨ SparesBases s
  | _ => True

def SparingRun (env : Env) (s : ValueStore) : List StoreOp → Prop
  | [] => True
  | op :: ops => op.Sparing s ∧ ∀ t ∈ op.apply env s, SparingRun env t ops

variable {env : Env} {s t : ValueStore}

theorem StoreOp.apply_inv {op : StoreOp} (hreach : Reachable env s) (h : DepthInv env s)
    (hfits : op.Fits) (hsparing : op.Sparing s) (hrun : op.apply env s = some t) :
    Reachable env t ∧ DepthInv env t := by
  cases op with
  | put kind bytes =>
    cases hrun
    exact ⟨.putWithId hreach kind _ hfits, h.putWithId kind _ bytes⟩
  | putWithDelta kind bytes base =>
    obtain ⟨⟨u, id⟩, hput, rfl⟩ := Option.map_eq_some_iff.mp hrun
    exact ⟨.putWithDelta hreach hfits hput, h.putWithDelta hreach.sizes hfits hput⟩
  | setDeltaPolicy policy =>
    cases hrun
    exact ⟨.setDeltaPolicy hreach policy,
      h.congr ⟨h.wf.lengths, h.wf.nodup, h.wf.lookup⟩ fun _ => rfl⟩
  | compactDeltas order order' =>
    simp only [StoreOp.apply] at hrun
    split_ifs at hrun with horder
    obtain ⟨⟨u, report⟩, hcompact, rfl⟩ := Option.map_eq_some_iff.mp hrun
    exact ⟨.compactDeltas hreach hcompact,
      (compactDeltas_depthInv_iff h horder.1 horder.2 hcompact).mpr hsparing⟩
  | importTransferEntries entries =>
    simp only [StoreOp.apply] at hrun
    split at hrun
    · rename_i himport
      cases hrun
      exact ⟨.importTransferEntries hreach hfits himport, h.importTransferEntries himport⟩
    · cases hrun
  | loadStore config entries =>
    simp only [StoreOp.apply] at hrun
    split at hrun
    · rename_i hload
      cases hrun
      exact ⟨.loadStore hfits hload, loadStore_depthInv hload⟩
    · cases hrun

theorem runOps_inv {ops : List StoreOp} (hreach : Reachable env s) (h : DepthInv env s)
    (hfits : ∀ op ∈ ops, op.Fits) (hsparing : SparingRun env s ops)
    (hrun : runOps env s ops = some t) : DepthInv env t := by
  induction ops generalizing s with
  | nil =>
    cases hrun
    exact h
  | cons op ops ih =>
    obtain ⟨u, hop, hrest⟩ := Option.bind_eq_some_iff.mp hrun
    obtain ⟨hreach', hinv⟩ := op.apply_inv hreach h (hfits op (by simp)) hsparing.1 hop
    exact ih hreach' hinv (fun op' hop' => hfits op' (by simp [hop'])) (hsparing.2 u hop) hrest

/-- In every run whose compactions are sparing, each recorded depth is the one a walk along the
chain finds, the number of hops to the first cell. -/
theorem recorded_depth_of_sparing {config : ValueStoreConfig} {ops : List StoreOp}
    (hfits : ∀ op ∈ ops, op.Fits) (hsparing : SparingRun env (.new config) ops)
    (hrun : runOps env (.new config) ops = some s) :
    ∀ id entry delta, s.entryById id = some entry → entry.kind = .delta →
      entry.delta = some delta → deltaChainDepth s id = some (some delta.depth) ∧
        ∃ n, Hops s id n ∧ delta.depth = min n usizeMax := by
  have h : DepthInv env s := runOps_inv (.new config) (new_depthInv config) hfits hsparing hrun
  intro id entry delta hentry _ hdelta
  have hdepth := h.depth id entry delta hentry hdelta
  exact ⟨hdepth.deltaChainDepth env h.wf, hdepth⟩

/-- A chain of three deltas. -/
def sampleChain : List StoreOp := [
  .put .cell [],
  .putWithDelta .cell [1, 2, 3] (some (sampleEnv.valueId [])),
  .putWithDelta .cell [1, 2, 3, 4] (some (sampleEnv.valueId [1, 2, 3])),
  .putWithDelta .cell [1, 2, 3, 4, 5] (some (sampleEnv.valueId [1, 2, 3, 4]))]

def sampleOrder : Order := [⟨sampleEnv.valueId [], 0⟩, ⟨sampleEnv.valueId [1, 2, 3], 1⟩,
  ⟨sampleEnv.valueId [1, 2, 3, 4], 2⟩, ⟨sampleEnv.valueId [1, 2, 3, 4, 5], 3⟩]

/-- The chain, and a compaction under a policy that refuses every second depth. -/
def sampleCompaction (maxSkip : ℕ) : List StoreOp :=
  .setDeltaPolicy ⟨true, 0, 0, fun _ _ => false, 0, maxSkip⟩ :: sampleChain ++ [
  .setDeltaPolicy ⟨true, 0, 0, fun _ _ => false, 2, maxSkip⟩,
  .compactDeltas sampleOrder sampleOrder]

theorem sampleCompaction_isSome :
    (runOps sampleEnv (.new sampleConfig) (sampleCompaction 0)).isSome ∧
      (runOps sampleEnv (.new sampleConfig) (sampleCompaction 2)).isSome := by
  decide +kernel

theorem recorded_depth_of_sparing_sample :
    ∃ s, runOps sampleEnv (.new sampleConfig) (sampleCompaction 2) = some s ∧
      s.entries.map (fun e => e.delta.map (·.depth)) = [none, some 1, none, some 1] ∧
      ∀ id entry delta, s.entryById id = some entry → entry.kind = .delta →
        entry.delta = some delta → deltaChainDepth s id = some (some delta.depth) ∧
          ∃ n, Hops s id n ∧ delta.depth = min n usizeMax := by
  have hrun := (Option.some_get sampleCompaction_isSome.2).symm
  have hfits : ∀ op ∈ sampleCompaction 2, op.Fits := by
    simp [sampleCompaction, sampleChain, StoreOp.Fits]
  have hsparing : SparingRun sampleEnv (.new sampleConfig) (sampleCompaction 2) := by
    refine ⟨trivial, fun _ _ => ⟨trivial, fun _ _ => ⟨trivial, fun _ _ => ⟨trivial, fun _ _ =>
      ⟨trivial, fun _ _ => ⟨trivial, ?_⟩⟩⟩⟩⟩⟩
    intro s hs
    cases hs
    exact ⟨.inl Nat.zero_lt_two, fun _ _ => trivial⟩
  exact ⟨_, hrun, by decide +kernel, recorded_depth_of_sparing hfits hsparing hrun⟩

/-- With skip patches turned off, the last delta still records depth three, one hop above the
rewritten base. -/
theorem compaction_stale_depth :
    ∃ s, runOps sampleEnv (.new sampleConfig) (sampleCompaction 0) = some s ∧
      ∃ id entry delta, s.entryById id = some entry ∧ entry.kind = .delta ∧
        entry.delta = some delta ∧ delta.depth = 3 ∧ deltaChainDepth s id = some (some 1) := by
  refine ⟨_, (Option.some_get sampleCompaction_isSome.1).symm,
    sampleEnv.valueId [1, 2, 3, 4, 5], ⟨.delta, [5, 2, 0, 0, 4, 1, 1, 5],
      some ⟨sampleEnv.valueId [1, 2, 3, 4], 5, 3, []⟩⟩, _, by decide +kernel, rfl, rfl, rfl,
    by decide +kernel⟩

end Runs

end SkeinDB.Values
