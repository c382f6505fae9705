import SkeinDB.Values.Atomicity
import SkeinDB.Values.Depth

/-!
# The bound on base chains

`compact_deltas` rewrites the deltas whose recorded depth exceeds `max_chain`. Where no recorded
depth is below the length of its chain, one pass bounds every chain, in any order: a delta that is
left had an allowed depth, and rewriting only shortens chains. An import that fails leaves deltas
that record depth zero, whatever their chain.
-/
namespace SkeinDB.Values
open SkeinDB.Codec SkeinDB.Format SkeinDB.Delta

section Invariant
variable {env : Env} {s t : ValueStore}

/-- The recorded depth of an id, if it has one, is at least that of its chain. -/
def CoversAt (s : ValueStore) (id : ValueId) : Prop :=
  ∀ entry delta, s.entryById id = some entry → entry.delta = some delta →
    ∃ n, Hops s id n ∧ min n usizeMax ≤ delta.depth

/-- Every delta has a value and records at least the depth of its chain. -/
structure BoundInv (env : Env) (s : ValueStore) : Prop where
  wf : s.WF
  resolves : DeltasResolve env s
  covers : ∀ id, CoversAt s id
  cells : ∀ id entry delta, s.entryById id = some entry → entry.kind ≠ .delta →
    entry.delta = some delta → delta.depth = 0

theorem DepthInv.boundInv (h : DepthInv env s) : BoundInv env s where
  wf := h.wf
  resolves := h.resolves
  covers := by
    intro id entry delta hentry hdelta
    obtain ⟨n, hn, hdepth⟩ := h.depth id entry delta hentry hdelta
    exact ⟨n, hn, hdepth.ge⟩
  cells := by
    intro id entry delta hentry hkind hdelta
    obtain ⟨n, hn, hdepth⟩ := h.depth id entry delta hentry hdelta
    rw [hdepth, hn.functional (.cell hentry hkind), Nat.zero_min]

theorem BoundInv.congr (h : BoundInv env s) (hwf : t.WF)
    (hlook : ∀ id, t.entryById id = s.entryById id) : BoundInv env t where
  wf := hwf
  resolves := by
    intro id entry delta hentry
    rw [node_congr hlook]
    exact h.resolves id entry delta ((hlook id).symm.trans hentry)
  covers := by
    intro id entry delta hentry hdelta
    obtain ⟨n, hn, hdepth⟩ := h.covers id entry delta ((hlook id).symm.trans hentry) hdelta
    exact ⟨n, hn.congr hlook, hdepth⟩
  cells := fun id entry delta hentry => h.cells id entry delta ((hlook id).symm.trans hentry)

theorem BoundInv.same (h : BoundInv env s) (hsame : ValueStore.SameContents s t) :
    BoundInv env t :=
  h.congr (hsame.wf h.wf) hsame.entryById

/-- A new entry without delta data, or a delta that resolves and records enough. -/
theorem BoundInv.insertNew (h : BoundInv env s) {id : ValueId} (hid : id ∉ s.index)
    {entry : ValueEntry}
    (hnew : ∀ delta, entry.delta = some delta → entry.kind = .delta ∧
      (∃ v, Resolves patchValue ((s.insertNew env id entry).node env) id v) ∧
      ∃ n, Hops (s.insertNew env id entry) id n ∧ min n usizeMax ≤ delta.depth) :
    BoundInv env (s.insertNew env id entry) := by
  have hlook := @ValueStore.entryById_insertNew s h.wf env id entry
  refine ⟨ValueStore.insertNew_wf h.wf env hid entry,
    h.resolves.insertNew h.wf hid fun delta hdelta => (hnew delta hdelta).2.1, ?_, ?_⟩
  · intro k e delta hentry hdelta
    rw [hlook] at hentry
    split at hentry
    · rename_i hk
      subst hk
      cases hentry
      exact (hnew delta hdelta).2.2
    · obtain ⟨n, hn, hdepth⟩ := h.covers k e delta hentry hdelta
      exact ⟨n, hn.insertNew h.wf hid entry, hdepth⟩
  · intro k e delta hentry hkind hdelta
    rw [hlook] at hentry
    split at hentry
    · cases hentry
      exact absurd (hnew delta hdelta).1 hkind
    · exact h.cells k e delta hentry hkind hdelta

theorem BoundInv.putWithId (h : BoundInv env s) (kind : ValueKind) (id : ValueId)
    (bytes : Bytes) : BoundInv env (s.putWithId env kind id bytes).1 := by
  unfold ValueStore.putWithId
  split
  · exact h
  · rename_i hid
    exact h.insertNew hid (by simp)

theorem BoundInv.putWithDelta (h : BoundInv env s) (hsizes : Sizes s) {kind : ValueKind}
    {bytes : Bytes} {base : Option ValueId} {id : ValueId} (hlen : bytes.length < 2 ^ 63)
    (hput : putWithDelta env s kind bytes base = some (t, id)) : BoundInv env t := by
  obtain hput | ⟨hid, rfl, baseId, b, depth, skip, hbase, hne, ⟨baseEntry, hentry, rfl⟩, -, rfl⟩ :=
    putWithDelta_cases hput
  · have hinv : BoundInv env (s.put env kind bytes).1 :=
      h.putWithId kind (env.valueId bytes) bytes
    rwa [hput] at hinv
  · refine h.insertNew hid ?_
    intro delta hdelta
    cases hdelta
    refine ⟨rfl, ⟨bytes, resolves_insertDelta h.wf hsizes hid hbase hne hlen _ _⟩, ?_⟩
    obtain ⟨n, hn, hdepth⟩ := recorded_depth (P := fun n depth => min n usizeMax ≤ depth) (by simp)
      hbase hentry fun delta hdelta => h.covers baseId baseEntry delta hentry hdelta
    refine ⟨n + 1, .delta (entryById_insertNew_self h.wf _ _) rfl rfl (hn.insertNew h.wf hid _), ?_⟩
    dsimp only
    omega

end Invariant

section Returns
variable {env : Env} {s t : ValueStore}

/-- An id resolves, is not stored, or is a delta without a base. -/
theorem DeltasResolve.id_cases (h : DeltasResolve env s) (id : ValueId) :
    (∃ v, Resolves patchValue (s.node env) id v) ∨ s.entryById id = none ∨
      ∃ entry, s.entryById id = some entry ∧ entry.kind = .delta ∧ entry.delta = none := by
  rcases hentry : s.entryById id with _ | entry
  · exact .inr (.inl rfl)
  by_cases hkind : entry.kind = .delta
  · rcases hdelta : entry.delta with _ | delta
    · exact .inr (.inr ⟨entry, rfl, hkind, hdelta⟩)
    · exact .inl (h id entry delta hentry hkind hdelta)
  · exact .inl ⟨entry.bytes, .cell (node_cell hentry hkind)⟩

theorem DeltasResolve.materialize_ne_none (h : DeltasResolve env s) (hs : s.WF) (id : ValueId) :
    materializeInternal env s id false ≠ none := by
  rcases h.id_cases id with ⟨v, hv⟩ | hnone | ⟨entry, hentry, hkind, hdelta⟩
  · obtain ⟨trace, hrun⟩ := (materializeInternal_iff hs).mpr hv
    rw [hrun]
    simp
  · simp [materializeInternal, materializeWithCache, hnone]
  · simp [materializeInternal, materializeWithCache, hentry, hkind, hdelta]

theorem DeltasResolve.chain_ne_none (h : DeltasResolve env s) (hs : s.WF)
    (onDelta onCell : ℕ → ValueEntry → ℕ) (id : ValueId) :
    chainLoop s onDelta onCell (s.entries.length + 1) id 0 ≠ none := by
  rcases h.id_cases id with ⟨v, hv⟩ | hnone | ⟨entry, hentry, hkind, hdelta⟩
  · obtain ⟨n, hn⟩ := Resolves.grounded hv
    exact chainLoop_ne_none (grounded_entries hs hn) (Nat.le_succ _)
  · simp [chainLoop, hnone]
  · simp [chainLoop, hentry, hkind, hdelta]

theorem DeltasResolve.rewriteStep (h : DeltasResolve env s) (hs : s.WF)
    (report : DeltaCompactionReport) (id : ValueId) :
    ∃ t report', rewriteStep env (s, report) id = some (t, report') ∧ t.WF ∧
      DeltasResolve env t := by
  obtain ⟨chain, hchain⟩ := Option.ne_none_iff_exists'.mp (h.chain_ne_none hs
    (fun total e => total + e.bytes.length) (fun total e => total + e.bytes.length) id)
  obtain ⟨result, hmat⟩ := Option.ne_none_iff_exists'.mp (h.materialize_ne_none hs id)
  simp only [Values.rewriteStep, deltaChainBytes, hchain, hmat, Option.bind_eq_bind,
    Option.bind_some]
  rcases result with err | ⟨bytes, trace⟩
  · exact ⟨s, report, rfl, hs, h⟩
  rcases hidx : s.index.lookup id with _ | idx
  · exact ⟨s, report, rfl, hs, h⟩
  by_cases hlt : idx < s.entries.length
  · simp only [hlt, if_true]
    refine ⟨_, _, rfl, ValueStore.set_wf hs idx _, ?_⟩
    intro k entry delta hentry hkind hdelta
    rw [ValueStore.entryById_set hs hidx] at hentry
    split at hentry
    · cases hentry
      cases hdelta
    · obtain ⟨v, hv⟩ := h k entry delta hentry hkind hdelta
      exact ⟨v, set_cell_resolves hs hidx (materializeInternal_sound hmat) hv⟩
  · simp only [hlt, if_false]
    exact ⟨s, report, rfl, hs, h⟩

theorem DeltasResolve.rewrite_run (h : DeltasResolve env s) (hs : s.WF)
    (report : DeltaCompactionReport) (ids : List ValueId) :
    ∃ t report', ids.foldlM (Values.rewriteStep env) (s, report) = some (t, report') ∧ t.WF ∧
      DeltasResolve env t := by
  induction ids generalizing s report with
  | nil => exact ⟨s, report, rfl, hs, h⟩
  | cons id ids ih =>
    obtain ⟨t, report', hstep, ht, hresolves⟩ := h.rewriteStep hs report id
    obtain ⟨u, report'', hrun, hu⟩ := ih hresolves ht report'
    refine ⟨u, report'', ?_, hu⟩
    rw [List.foldlM_cons, hstep]
    exact hrun

theorem DeltasResolve.skipUpdate_ne_none (h : DeltasResolve env s) (hs : s.WF)
    (p : (_ : ValueId) × ℕ) : skipUpdate env s p ≠ none := by
  obtain ⟨chain, hchain⟩ := Option.ne_none_iff_exists'.mp (h.chain_ne_none hs
    (fun depth _ => min (depth + 1) usizeMax) (fun depth _ => depth) p.1)
  obtain ⟨result, hmat⟩ := Option.ne_none_iff_exists'.mp (h.materialize_ne_none hs p.1)
  unfold skipUpdate
  split
  · simp
  split
  · simp
  split
  · simp
  rename_i delta _
  simp only [deltaChainDepth, hchain, hmat, Option.bind_eq_bind, Option.bind_some]
  rcases chain with _ | depth
  · simp
  rcases result with err | ⟨bytes, trace⟩
  · simp
  obtain ⟨skip, hskip⟩ := Option.ne_none_iff_exists'.mp (skipLoop_ne_none
    (h.materialize_ne_none hs) bytes delta.base depth s.config.deltaPolicy.maxSkip 2)
  simp [buildSkipPatches, hskip]

theorem DeltasResolve.skipUpdates_ne_none (h : DeltasResolve env s) (hs : s.WF) (order : Order)
    (report : DeltaCompactionReport) : skipUpdates env s order report ≠ none := by
  induction order generalizing report with
  | nil => simp [skipUpdates]
  | cons p ps ih =>
    obtain ⟨r, hr⟩ := Option.ne_none_iff_exists'.mp (h.skipUpdate_ne_none hs p)
    obtain ⟨chain, hchain⟩ := Option.ne_none_iff_exists'.mp (h.chain_ne_none hs
      (fun total e => total + e.bytes.length) (fun total e => total + e.bytes.length) p.1)
    simp only [skipUpdates, hr, deltaChainBytes, hchain, Option.bind_eq_bind, Option.bind_some]
    rcases r with _ | update
    · exact ih report
    · simp only
      generalize DeltaCompactionReport.mk _ _ _ _ _ = report'
      obtain ⟨rest, hrest⟩ := Option.ne_none_iff_exists'.mp (ih report')
      simp [hrest]

/-- Compaction returns when every delta with a base has a value. -/
theorem DeltasResolve.compactDeltas_ne_none (h : DeltasResolve env s) (hs : s.WF)
    (order order' : Order) : compactDeltas env s order order' ≠ none := by
  obtain ⟨t, report, hrun, ht, hresolves⟩ :=
    h.rewrite_run hs ⟨0, 0, 0, 0, 0⟩ (rewriteIds s order)
  simp only [compactDeltas, hrun, Option.bind_eq_bind, Option.bind_some]
  split
  · obtain ⟨updates, hupdates⟩ := Option.ne_none_iff_exists'.mp
      (hresolves.skipUpdates_ne_none ht order' report)
    simp [hupdates]
  · simp

end Returns

section Compaction
variable {env : Env} {s t : ValueStore} {order order' : Order} {report : DeltaCompactionReport}

/-- Rewriting does not lengthen a chain. -/
theorem Hops.shorten {ids : List ValueId} (h : Flattened env ids s t) {id : ValueId} {n : ℕ}
    (hn : Hops s id n) : ∃ m, m ≤ n ∧ Hops t id m := by
  induction hn with
  | @cell id entry hentry hkind =>
    by_cases hid : id ∈ ids
    · obtain ⟨bytes, hcell⟩ := h.cells id hid
      exact ⟨0, le_rfl, .cell hcell (by simp)⟩
    · exact ⟨0, le_rfl, .cell ((h.others id hid).trans hentry) hkind⟩
  | @delta id entry delta n hentry hkind hdelta _ ih =>
    by_cases hid : id ∈ ids
    · obtain ⟨bytes, hcell⟩ := h.cells id hid
      exact ⟨0, Nat.zero_le _, .cell hcell (by simp)⟩
    · obtain ⟨m, hle, hm⟩ := ih
      exact ⟨m + 1, by omega, .delta ((h.others id hid).trans hentry) hkind hdelta hm⟩

theorem BoundInv.flattened {ids : List ValueId} (hs : BoundInv env s)
    (h : Flattened env ids s t) : BoundInv env t where
  wf := h.wf
  resolves := h.resolves_delta hs.resolves
  covers := by
    intro id entry delta hentry hdelta
    obtain ⟨n, hn, hdepth⟩ := hs.covers id entry delta (h.delta hentry hdelta).2 hdelta
    obtain ⟨m, hle, hm⟩ := hn.shorten h
    exact ⟨m, hm, by omega⟩
  cells := fun id entry delta hentry hkind hdelta =>
    hs.cells id entry delta (h.delta hentry hdelta).2 hkind hdelta

/-- The rewriting loop leaves only deltas that the policy allows. -/
theorem BoundInv.rewritten (h : BoundInv env s) (horder : order.Perm s.index.entries)
    {report : DeltaCompactionReport}
    (hrewrite : (rewriteIds s order).foldlM (rewriteStep env) (s, ⟨0, 0, 0, 0, 0⟩) =
      some (t, report)) :
    Flattened env (rewriteIds s order) s t ∧
      ∀ id entry delta, t.entryById id = some entry → entry.kind = .delta →
        entry.delta = some delta → ¬ s.config.deltaPolicy.refusesDepth delta.depth := by
  have hids (id : ValueId) : id ∈ rewriteIds s order ↔ Refused s id := mem_rewriteIds horder
  have hflat : Flattened env (rewriteIds s order) s t := by
    refine rewrite_run_flattened h.wf ?_ hrewrite
    intro id hid
    obtain ⟨entry, delta, hentry, hkind, hdelta, -⟩ := (hids id).mp hid
    exact h.resolves id entry delta hentry hkind hdelta
  refine ⟨hflat, ?_⟩
  intro id entry delta hentry hkind hdelta hrefused
  obtain ⟨hid, hentry'⟩ := hflat.delta hentry hdelta
  exact hid ((hids id).mpr ⟨entry, delta, hentry', hkind, hdelta, hrefused⟩)

/-- A chain whose first delta records an allowed depth is short enough. -/
theorem BoundInv.hops_le (h : BoundInv env s) {policy : DeltaPolicy} (hmax : 0 < policy.maxChain)
    (hallowed : ∀ id entry delta, s.entryById id = some entry → entry.kind = .delta →
      entry.delta = some delta → ¬ policy.refusesDepth delta.depth)
    {id : ValueId} {n : ℕ} (hn : Hops s id n) : min n usizeMax ≤ policy.maxChain := by
  cases hn with
  | cell => omega
  | @delta _ entry delta m hentry hkind hdelta hbase =>
    obtain ⟨k, hk, hdepth⟩ := h.covers id entry delta hentry hdelta
    have hle : delta.depth ≤ policy.maxChain := by
      have hspared := hallowed id entry delta hentry hkind hdelta
      simp only [DeltaPolicy.refusesDepth] at hspared
      grind
    rw [hk.functional (.delta hentry hkind hdelta hbase)] at hdepth
    exact hdepth.trans hle

/-- One compaction, in any two orders, keeps the invariant and bounds every chain. -/
theorem BoundInv.compactDeltas (h : BoundInv env s) (horder : order.Perm s.index.entries)
    (horder' : order'.Perm s.index.entries)
    (hcompact : compactDeltas env s order order' = some (t, report)) :
    BoundInv env t ∧ (0 < s.config.deltaPolicy.maxChain →
      ∀ id n, Hops t id n → min n usizeMax ≤ s.config.deltaPolicy.maxChain) := by
  obtain ⟨⟨u, report1⟩, hrewrite, hrest⟩ := Option.bind_eq_some_iff.mp hcompact
  obtain ⟨hflat, hallowed⟩ := h.rewritten horder hrewrite
  have hu : BoundInv env u := h.flattened hflat
  simp only [hflat.same.config] at hrest
  split at hrest
  · obtain ⟨⟨updates, report2⟩, hupdates, hrest⟩ := Option.bind_eq_some_iff.mp hrest
    have hcells : ∀ id entry, u.entryById id = some entry → entry.kind ≠ .delta →
        DepthAt u id := by
      intro id entry hentry hkind e delta he hdelta
      obtain rfl : entry = e := Option.some.inj (hentry.symm.trans he)
      exact ⟨0, .cell hentry hkind, by rw [hu.cells id entry delta hentry hkind hdelta]; simp⟩
    have hinv := rebuilt_depthInv hu.wf hu.resolves hcells (hflat.same.index ▸ horder') hupdates
    obtain ⟨hreset, -⟩ := applySkipUpdates_reset updates hu.wf report2
    rw [Option.some.injEq] at hrest
    dsimp only at hrest
    rw [hrest] at hinv hreset
    refine ⟨hinv.boundInv, fun hmax id n hn => ?_⟩
    exact hu.hops_le hmax hallowed (hn.reset hreset.symm)
  · cases hrest
    exact ⟨hu, fun hmax id n hn => hu.hops_le hmax hallowed hn⟩

end Compaction

section Runs
variable {env : Env} {s t : ValueStore}

/-- Every store that operations reach whose imports have all succeeded. A compaction may visit the
index in any two orders. -/
inductive ImportedRun (env : Env) : ValueStore → Prop
  | new (config : ValueStoreConfig) : ImportedRun env (.new config)
  | putWithId {s : ValueStore} (h : ImportedRun env s) (kind : ValueKind) (id : ValueId)
      {bytes : Bytes} (hlen : bytes.length < 2 ^ 63) :
      ImportedRun env (s.putWithId env kind id bytes).1
  | putWithDelta {s t : ValueStore} {kind : ValueKind} {bytes : Bytes} {base : Option ValueId}
      {id : ValueId} (h : ImportedRun env s) (hlen : bytes.length < 2 ^ 63)
      (hput : putWithDelta env s kind bytes base = some (t, id)) : ImportedRun env t
  | setDeltaPolicy {s : ValueStore} (h : ImportedRun env s) (policy : DeltaPolicy) :
      ImportedRun env (s.setDeltaPolicy policy)
  | compactDeltas {s t : ValueStore} {order order' : Order} {report : DeltaCompactionReport}
      (h : ImportedRun env s) (horder : order.Perm s.index.entries)
      (horder' : order'.Perm s.index.entries)
      (hcompact : compactDeltas env s order order' = some (t, report)) : ImportedRun env t
  | get {s : ValueStore} (h : ImportedRun env s) (id : ValueId) : ImportedRun env (s.get id).2
  | enable {s : ValueStore} (h : ImportedRun env s) (enabled : Bool) :
      ImportedRun env { s with config := { s.config with enableLearnedIndex := enabled } }
  | maybeRefresh {s : ValueStore} (h : ImportedRun env s) : ImportedRun env (s.maybeRefresh env)
  | refreshLearnedIndex {s : ValueStore} (h : ImportedRun env s) :
      ImportedRun env (s.refreshLearnedIndex env)
  | importTransferEntries {s t : ValueStore} {es : List ValueSegmentEntry} {n : ℕ}
      (h : ImportedRun env s) (hfits : ∀ e ∈ es, e.entry.Fits)
      (himport : s.importTransferEntries env es = some (.ok n, t)) : ImportedRun env t
  | loadStore {config : ValueStoreConfig} {t : ValueStore} {es : List ValueSegmentEntry}
      (hfits : ∀ e ∈ es, e.entry.Fits)
      (hload : ValueStore.loadStore env config es = some (.ok t)) : ImportedRun env t

theorem ImportedRun.reachable (h : ImportedRun env s) : Reachable env s := by
  induction h with
  | new config => exact .new config
  | putWithId _ kind id hlen ih => exact .putWithId ih kind id hlen
  | putWithDelta _ hlen hput ih => exact .putWithDelta ih hlen hput
  | setDeltaPolicy _ policy ih => exact .setDeltaPolicy ih policy
  | compactDeltas _ _ _ hcompact ih => exact .compactDeltas ih hcompact
  | get _ id ih => exact .get ih id
  | enable _ enabled ih => exact .enable ih enabled
  | maybeRefresh _ ih => exact .maybeRefresh ih
  | refreshLearnedIndex _ ih => exact .refreshLearnedIndex ih
  | importTransferEntries _ hfits himport ih => exact .importTransferEntries ih hfits himport
  | loadStore hfits hload => exact .loadStore hfits hload

theorem BoundInv.importTransferEntries (h : BoundInv env s) {es : List ValueSegmentEntry} {n : ℕ}
    (himport : s.importTransferEntries env es = some (.ok n, t)) : BoundInv env t := by
  rcases importTransferEntries_depthInv h.wf himport with rfl | ht
  · exact h
  · exact ht.boundInv

theorem ImportedRun.boundInv (h : ImportedRun env s) : BoundInv env s := by
  induction h with
  | new config => exact (new_depthInv config).boundInv
  | putWithId _ kind id _ ih => exact ih.putWithId kind id _
  | putWithDelta h hlen hput ih => exact ih.putWithDelta h.reachable.sizes hlen hput
  | setDeltaPolicy _ policy ih =>
    exact ih.congr ⟨ih.wf.lengths, ih.wf.nodup, ih.wf.lookup⟩ fun _ => rfl
  | compactDeltas _ horder horder' hcompact ih => exact (ih.compactDeltas horder horder' hcompact).1
  | @get s _ id ih =>
    rw [get_snd]
    exact ih.congr ⟨ih.wf.lengths, ih.wf.nodup, ih.wf.lookup⟩ fun _ => rfl
  | enable _ _ ih => exact ih.congr ⟨ih.wf.lengths, ih.wf.nodup, ih.wf.lookup⟩ fun _ => rfl
  | @maybeRefresh s _ ih => exact ih.same (ValueStore.maybeRefresh_same env s)
  | @refreshLearnedIndex s _ ih => exact ih.same (ValueStore.refreshLearnedIndex_same env s)
  | importTransferEntries _ _ himport ih => exact ih.importTransferEntries himport
  | loadStore _ hload => exact (loadStore_depthInv hload).boundInv

/-- The depth of a chain is found, unless the chain meets a delta without a base. -/
theorem BoundInv.deltaChainDepth (h : BoundInv env s) {id : ValueId} {depth : ℕ}
    (hdepth : ∀ n, Hops s id n → min n usizeMax ≤ depth) :
    ∃ r, deltaChainDepth s id = some r ∧ ∀ d ∈ r, d ≤ depth := by
  rcases h.resolves.id_cases id with ⟨v, hv⟩ | hnone | ⟨entry, hentry, hkind, hdelta⟩
  · obtain ⟨n, hn⟩ := Hops.of_resolves hv
    refine ⟨some (min n usizeMax), DepthIs.deltaChainDepth env h.wf ⟨n, hn, rfl⟩, ?_⟩
    intro d hd
    cases hd
    exact hdepth n hn
  · exact ⟨none, by simp [Values.deltaChainDepth, chainLoop, hnone], by simp⟩
  · exact ⟨none, by simp [Values.deltaChainDepth, chainLoop, hentry, hkind, hdelta], by simp⟩

/-- In every run whose imports have succeeded, one compaction returns, whatever the orders, and
leaves no chain longer than `max_chain`. -/
theorem max_chain_bounds_depth (hs : ImportedRun env s) (policy : DeltaPolicy)
    (hmax : 0 < policy.maxChain) {order order' : Order} (horder : order.Perm s.index.entries)
    (horder' : order'.Perm s.index.entries) :
    ∃ t report, compactDeltas env (s.setDeltaPolicy policy) order order' = some (t, report) ∧
      ∀ id ∈ t.index, ∃ r, deltaChainDepth t id = some r ∧ ∀ d ∈ r, d ≤ policy.maxChain := by
  have hinv : BoundInv env (s.setDeltaPolicy policy) := (ImportedRun.setDeltaPolicy hs policy).boundInv
  obtain ⟨⟨t, report⟩, hcompact⟩ := Option.ne_none_iff_exists'.mp
    (hinv.resolves.compactDeltas_ne_none hinv.wf order order')
  obtain ⟨ht, hbound⟩ := hinv.compactDeltas horder horder' hcompact
  exact ⟨t, report, hcompact, fun id _ => ht.deltaChainDepth (hbound hmax id)⟩

/-- A policy that allows one hop and sets no snapshots. -/
def oneHop : DeltaPolicy := ⟨true, 0, 1, fun _ _ => false, 0, 0⟩

/-- A chain of two deltas. -/
def twoHops : Option (ValueStore × ValueId) :=
  let s := ((ValueStore.new sampleConfig).put sampleEnv .cell [1, 2, 3]).1
  (putWithDelta sampleEnv s .cell [1, 2, 3, 4] (some (sampleEnv.valueId [1, 2, 3]))).bind fun p =>
    putWithDelta sampleEnv p.1 .cell [1, 2, 3, 4, 5] (some (sampleEnv.valueId [1, 2, 3, 4]))

theorem twoHops_isSome : twoHops.isSome := by decide +kernel

theorem max_chain_bounds_depth_twoHops :
    ∃ s, ImportedRun sampleEnv s ∧
      deltaChainDepth s (sampleEnv.valueId [1, 2, 3, 4, 5]) = some (some 2) ∧
      ∃ t report, compactDeltas sampleEnv (s.setDeltaPolicy oneHop) s.index.entries
          s.index.entries = some (t, report) ∧
        ∀ id ∈ t.index, ∃ r, deltaChainDepth t id = some r ∧ ∀ d ∈ r, d ≤ oneHop.maxChain := by
  have hrun : twoHops = some (twoHops.get twoHops_isSome) := (Option.some_get _).symm
  have hdepth : deltaChainDepth (twoHops.get twoHops_isSome).1 (sampleEnv.valueId [1, 2, 3, 4, 5]) =
      some (some 2) := by
    decide +kernel
  generalize twoHops.get twoHops_isSome = p at hrun hdepth
  obtain ⟨s, id⟩ := p
  unfold twoHops at hrun
  obtain ⟨⟨s₁, id₁⟩, hput₁, hput⟩ := Option.bind_eq_some_iff.mp hrun
  have hs : ImportedRun sampleEnv s :=
    .putWithDelta (.putWithDelta (.putWithId (.new sampleConfig) .cell _ (by simp)) (by simp) hput₁)
      (by simp) hput
  exact ⟨s, hs, hdepth, max_chain_bounds_depth hs oneHop (by decide) (.refl _) (.refl _)⟩

/-- A delta without its base, and a chain of two deltas behind it, as a decoder gives them. -/
def orphanFirst : List ValueSegmentEntry := [
  ⟨sampleId 1, .delta, [], some ⟨sampleId 2, 0, 0, []⟩⟩,
  ⟨sampleEnv.valueId [1, 2, 3], .cell, [1, 2, 3], none⟩,
  ⟨sampleEnv.valueId [1, 2, 3, 4], .delta, buildPatchBytes [1, 2, 3] [1, 2, 3, 4],
    some ⟨sampleEnv.valueId [1, 2, 3], 4, 0, []⟩⟩,
  ⟨sampleEnv.valueId [1, 2, 3, 4, 5], .delta, buildPatchBytes [1, 2, 3, 4] [1, 2, 3, 4, 5],
    some ⟨sampleEnv.valueId [1, 2, 3, 4], 5, 0, []⟩⟩]

/-- The failed import leaves the second delta with recorded depth zero, and a compaction that
allows one hop leaves its chain of two. -/
theorem failed_import_exceeds_max_chain :
    ∃ s t report, emptyStore.importTransferEntries sampleEnv orphanFirst =
        some (.error .missingDeltaBase, s) ∧ Reachable sampleEnv s ∧ 0 < oneHop.maxChain ∧
      compactDeltas sampleEnv (s.setDeltaPolicy oneHop) s.index.entries s.index.entries =
        some (t, report) ∧
      sampleEnv.valueId [1, 2, 3, 4, 5] ∈ t.index ∧
      materialize sampleEnv t (sampleEnv.valueId [1, 2, 3, 4, 5]) = some (.ok [1, 2, 3, 4, 5]) ∧
      deltaChainDepth t (sampleEnv.valueId [1, 2, 3, 4, 5]) = some (some 2) := by
  have hfits : ∀ e ∈ orphanFirst, e.entry.Fits := by
    intro e he
    fin_cases he <;> exact ⟨by decide, by simp⟩
  have hs : Reachable sampleEnv emptyStore := .new _
  exact ⟨_, _, _, rfl, .importTransferEntries hs hfits rfl, by decide, rfl, by decide +kernel,
    by decide +kernel, by decide +kernel⟩

end Runs

end SkeinDB.Values
