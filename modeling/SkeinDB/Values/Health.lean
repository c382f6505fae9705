import SkeinDB.Values.Compaction

/-!
# Stores in which every id materializes

A store is healthy when its index is well formed and every stored id is sound. Every
write, rewrite and skip rebuild keeps a store healthy, keeps the value of every sound
id, and returns.
-/
namespace SkeinDB.Values
open SkeinDB.Codec SkeinDB.Format SkeinDB.Delta

structure Healthy (env : Env) (s : ValueStore) : Prop where
  wf : s.WF
  sound : ∀ id ∈ s.index, ∃ v : Bytes, v.length < 2 ^ 64 ∧ Sound patchValue (s.node env) id v

/-- Every sound id keeps its value. -/
def Keeps (env : Env) (s t : ValueStore) : Prop :=
  ∀ id v, Sound patchValue (s.node env) id v → Sound patchValue (t.node env) id v

variable {env : Env} {s t : ValueStore}

theorem Keeps.refl (env : Env) (s : ValueStore) : Keeps env s s := fun _ _ h => h

theorem Keeps.trans {u : ValueStore} (h : Keeps env s t) (h' : Keeps env t u) : Keeps env s u :=
  fun id v hid => h' id v (h id v hid)

theorem Healthy.keeps (hs : Healthy env s) (ht : t.WF) (hindex : t.index = s.index)
    (hkeeps : Keeps env s t) : Healthy env t := by
  refine ⟨ht, fun id hid => ?_⟩
  rw [hindex] at hid
  obtain ⟨v, hlen, hv⟩ := hs.sound id hid
  exact ⟨v, hlen, hkeeps id v hv⟩

theorem node_congr (h : ∀ id, t.entryById id = s.entryById id) : t.node env = s.node env := by
  funext id
  rw [ValueStore.node, ValueStore.node, h]

theorem node_of_entries (hentries : t.entries = s.entries) (hindex : t.index = s.index) :
    t.node env = s.node env :=
  node_congr fun id => by rw [ValueStore.entryById, ValueStore.entryById, hentries, hindex]

/-- Only the entries and the index matter. -/
theorem Healthy.congr (h : Healthy env s) (hentries : t.entries = s.entries)
    (hids : t.entryIds = s.entryIds) (hindex : t.index = s.index) : Healthy env t := by
  refine ⟨⟨?_, ?_, ?_⟩, ?_⟩
  · rw [hids, hentries, h.wf.lengths]
  · rw [hids]
    exact h.wf.nodup
  · rw [hids, hindex]
    exact h.wf.lookup
  · rw [hindex, node_of_entries hentries hindex]
    exact h.sound

theorem new_healthy (env : Env) (config : ValueStoreConfig) : Healthy env (.new config) := by
  refine ⟨ValueStore.new_wf config, fun id hid => ?_⟩
  simp [ValueStore.new] at hid

/-- A sound id materializes to its value, with and without skip patches. -/
theorem materialize_ok (hs : s.WF) {id : ValueId} {v : Bytes}
    (h : Sound patchValue (s.node env) id v) :
    materialize env s id = some (.ok v) ∧
      (∃ trace, materializeInternal env s id true = some (.ok (v, trace))) ∧
      ∃ trace, materializeInternal env s id false = some (.ok (v, trace)) := by
  have hskip : Sound patchValue (s.nodeFor env true) id v := by rwa [nodeFor_true]
  obtain ⟨trace, hrun⟩ := materializeInternal_ok hs hskip
  refine ⟨?_, ⟨trace, hrun⟩, (materializeInternal_iff hs).mpr h.resolves⟩
  rw [materialize, hrun]
  rfl

theorem mem_index_of_resolves (hs : s.WF) {id : ValueId} {v : Bytes}
    (h : Resolves patchValue (s.node env) id v) : id ∈ s.index := by
  rw [← ValueStore.entryById_isSome hs]
  have hsome := h.isSome
  cases hentry : s.entryById id with
  | none => simp [ValueStore.node, hentry] at hsome
  | some entry => rfl

theorem Healthy.sound_of_resolves (hs : Healthy env s) {id : ValueId} {v : Bytes}
    (h : Resolves patchValue (s.node env) id v) :
    v.length < 2 ^ 64 ∧ Sound patchValue (s.node env) id v := by
  obtain ⟨w, hlen, hw⟩ := hs.sound id (mem_index_of_resolves hs.wf h)
  rw [h.functional hw.resolves]
  exact ⟨hlen, hw⟩

/-- In a healthy store no evaluation diverges. -/
theorem Healthy.materialize_ne_none (hs : Healthy env s) (id : ValueId) :
    materializeInternal env s id false ≠ none := by
  by_cases hid : id ∈ s.index
  · obtain ⟨v, -, hv⟩ := hs.sound id hid
    obtain ⟨trace, hrun⟩ := (materializeInternal_iff hs.wf).mpr hv.resolves
    rw [hrun]
    simp
  · have hnone : s.entryById id = none := by
      rw [← ValueStore.entryById_isSome hs.wf] at hid
      simpa using hid
    simp [materializeInternal, materializeWithCache, hnone]

theorem insertNew_refines (hs : s.WF) {id : ValueId} (hid : id ∉ s.index) (entry : ValueEntry) :
    Refines patchValue (s.node env) ((s.insertNew env id entry).node env) := by
  intro k n hk
  left
  have hne : k ≠ id := by
    rintro rfl
    cases hentry : s.entryById k with
    | none => simp [ValueStore.node, hentry] at hk
    | some e => exact hid ((ValueStore.entryById_isSome hs).mp (by rw [hentry]; rfl))
  rw [ValueStore.node, ValueStore.entryById_insertNew hs, if_neg hne]
  exact hk

/-- The entry a write adds is sound for the bytes it was given. -/
theorem EntryFor.sound (hs : Healthy env s) {bytes : Bytes} (hlen : bytes.length < 2 ^ 64)
    (hid : env.valueId bytes ∉ s.index) {entry : ValueEntry} (h : EntryFor env s bytes entry) :
    Sound patchValue ((s.insertNew env (env.valueId bytes) entry).node env)
      (env.valueId bytes) bytes := by
  have hlook (entry : ValueEntry) :
      (s.insertNew env (env.valueId bytes) entry).entryById (env.valueId bytes) = some entry := by
    rw [ValueStore.entryById_insertNew hs.wf, if_pos rfl]
  have hkeeps (entry : ValueEntry) {k : ValueId} {v : Bytes}
      (hk : Resolves patchValue (s.node env) k v) :
      v.length < 2 ^ 64 ∧
        Sound patchValue ((s.insertNew env (env.valueId bytes) entry).node env) k v := by
    obtain ⟨hv, hsound⟩ := hs.sound_of_resolves hk
    exact ⟨hv, hsound.refine (insertNew_refines hs.wf hid entry)⟩
  have hpatch {b : Bytes} (hb : b.length < 2 ^ 64) (hne : b ≠ bytes) :
      patchValue b (buildPatchBytes b bytes) = some bytes :=
    patchValue_eq_some.mpr (applyPatchBytes_buildPatchBytes hne hb hlen)
  cases h with
  | cell hkind => exact .cell (node_cell (hlook _) hkind)
  | @delta baseId b depth skip hbase hne hskip =>
    obtain ⟨hb, hbase'⟩ := hkeeps _ hbase
    refine .of_delta (node_delta (hlook _) rfl rfl) hbase' (hpatch hb hne) (by simp) fun q hq => ?_
    obtain ⟨k, hk, rfl⟩ := List.mem_map.mp hq
    obtain ⟨w, hw, hwne, hkpatch⟩ := (hskip k hk).patch
    obtain ⟨hwlen, hw'⟩ := hkeeps _ hw
    exact ⟨w, hw', by rw [hkpatch]; exact hpatch hwlen hwne⟩

/-- Storing a byte string keeps the store healthy and every value in it. -/
theorem Stored.healthy (hs : Healthy env s) {bytes : Bytes} (hlen : bytes.length < 2 ^ 64)
    {id : ValueId} (h : Stored env s bytes t id) : Healthy env t ∧ Keeps env s t := by
  cases h with
  | present => exact ⟨hs, .refl env s⟩
  | @added entry hid hentry =>
    have hkeeps : Keeps env s (s.insertNew env (env.valueId bytes) entry) :=
      fun _ _ hk => hk.refine (insertNew_refines hs.wf hid entry)
    refine ⟨⟨ValueStore.insertNew_wf hs.wf env hid entry, fun k hk => ?_⟩, hkeeps⟩
    rcases (ValueStore.mem_index_insertNew env entry).mp hk with rfl | hk
    · exact ⟨bytes, hlen, hentry.sound hs hlen hid⟩
    · obtain ⟨v, hv, hsound⟩ := hs.sound k hk
      exact ⟨v, hv, hkeeps k v hsound⟩

theorem skipLoop_ne_none (hs : ∀ id, materializeInternal env s id false ≠ none) (bytes : Bytes)
    (baseId : ValueId) (depth left distance : ℕ) :
    skipLoop env s bytes baseId depth left distance ≠ none := by
  induction left generalizing distance with
  | zero => simp [skipLoop]
  | succ left ih =>
    rw [skipLoop]
    split
    · simp
    split
    · simp
    rename_i ancestor _
    have hmat := hs ancestor
    split
    · contradiction
    · simp
    · simp only
      split
      · simp
      · simpa using ih _

/-- A delta write to a healthy store returns. -/
theorem putWithDelta_ne_none (hs : Healthy env s) (kind : ValueKind) (bytes : Bytes)
    (base : Option ValueId) : putWithDelta env s kind bytes base ≠ none := by
  unfold putWithDelta
  simp only
  split
  · simp
  rename_i baseId
  split
  · simp
  split
  · simp
  split
  · simp
  have hmat := hs.materialize_ne_none baseId
  split
  · contradiction
  · simp
  split
  · simp
  · split
    · simpa [buildSkipPatches] using skipLoop_ne_none hs.materialize_ne_none _ _ _ _ _
    · simp

section Compaction

/-- The parts of a store that a compaction step does not touch. -/
structure SameIndex (s t : ValueStore) : Prop where
  index : t.index = s.index
  config : t.config = s.config

theorem SameIndex.trans {u : ValueStore} (h : SameIndex s t) (h' : SameIndex t u) :
    SameIndex s u := ⟨h'.index.trans h.index, h'.config.trans h.config⟩

theorem deltaChain_ne_none (hs : Healthy env s) (onDelta onCell : ℕ → ValueEntry → ℕ)
    (id : ValueId) : chainLoop s onDelta onCell (s.entries.length + 1) id 0 ≠ none := by
  by_cases hid : id ∈ s.index
  · obtain ⟨v, -, hv⟩ := hs.sound id hid
    obtain ⟨n, hn⟩ := Resolves.grounded hv.resolves
    exact chainLoop_ne_none (grounded_entries hs.wf hn) (Nat.le_succ _)
  · have hnone : s.entryById id = none := by
      rw [← ValueStore.entryById_isSome hs.wf] at hid
      simpa using hid
    simp [chainLoop, hnone]

/-- A rewrite step replaces at most one id by its own value. -/
theorem rewriteStep_spec (hs : Healthy env s) (report : DeltaCompactionReport) (id : ValueId) :
    ∃ t report', rewriteStep env (s, report) id = some (t, report') ∧ Healthy env t ∧
      Keeps env s t ∧ SameIndex s t := by
  have hsame : Healthy env s ∧ Keeps env s s ∧ SameIndex s s := ⟨hs, .refl env s, rfl, rfl⟩
  obtain ⟨chain, hchain⟩ := Option.ne_none_iff_exists'.mp (deltaChain_ne_none hs
    (fun total e => total + e.bytes.length) (fun total e => total + e.bytes.length) id)
  obtain ⟨result, hmat⟩ := Option.ne_none_iff_exists'.mp (hs.materialize_ne_none id)
  simp only [rewriteStep, deltaChainBytes, hchain, hmat, Option.bind_eq_bind, Option.bind_some]
  cases result with
  | error e => exact ⟨s, report, rfl, hsame⟩
  | ok r =>
    obtain ⟨bytes, trace⟩ := r
    cases hlook : s.index.lookup id with
    | none => exact ⟨s, report, rfl, hsame⟩
    | some idx =>
      by_cases hlt : idx < s.entries.length
      · simp only [hlt, if_true]
        have hv := materializeInternal_sound hmat
        have hkeeps : Keeps env s
            { s with entries := s.entries.set idx ⟨.cell, bytes, none⟩ } := by
          intro k v hk
          refine hk.refine fun k n hn => ?_
          have hset := ValueStore.entryById_set hs.wf hlook ⟨.cell, bytes, none⟩ k
          by_cases hkid : k = id
          · subst hkid
            rw [if_pos rfl] at hset
            exact .inr ⟨bytes, node_cell hset (by simp), hv⟩
          · rw [if_neg hkid] at hset
            left
            rw [ValueStore.node, hset]
            exact hn
        exact ⟨_, _, rfl, hs.keeps (ValueStore.set_wf hs.wf idx _) rfl hkeeps, hkeeps, rfl, rfl⟩
      · simp only [hlt, if_false]
        exact ⟨s, report, rfl, hsame⟩

theorem rewrite_run_spec (hs : Healthy env s) (report : DeltaCompactionReport)
    (ids : List ValueId) :
    ∃ t report', ids.foldlM (rewriteStep env) (s, report) = some (t, report') ∧
      Healthy env t ∧ Keeps env s t ∧ SameIndex s t := by
  induction ids generalizing s report with
  | nil => exact ⟨s, report, rfl, hs, .refl env s, rfl, rfl⟩
  | cons id ids ih =>
    obtain ⟨t, report', hstep, ht, hkeeps, hsame⟩ := rewriteStep_spec hs report id
    obtain ⟨u, report'', hrun, hu, hkeeps', hsame'⟩ := ih ht report'
    refine ⟨u, report'', ?_, hu, hkeeps.trans hkeeps', hsame.trans hsame'⟩
    rw [List.foldlM_cons, hstep]
    exact hrun

/-- An update that gives a delta alternatives along its own chain. -/
structure UpdateOk (env : Env) (s : ValueStore) (update : ValueId × ℕ × List SkipPatch) :
    Prop where
  chain : ∃ base patch skips accepts v,
    s.node env update.1 = some (.delta base patch skips accepts) ∧
    Resolves patchValue (s.node env) update.1 v ∧
    ∀ k ∈ update.2.2, Ancestor (s.node env) base k.base ∧
      ∃ w, Resolves patchValue (s.node env) k.base w ∧ patchValue w k.patch = some v

theorem skipUpdate_spec (hs : Healthy env s) (p : (_ : ValueId) × ℕ)
    (hp : s.index.lookup p.1 = some p.2) :
    ∃ r, skipUpdate env s p = some r ∧ ∀ update, r = some update → UpdateOk env s update := by
  obtain ⟨id, idx⟩ := p
  have hentry : s.entryById id = s.entries[idx]? := by simp [ValueStore.entryById, hp]
  obtain ⟨chain, hchain⟩ := Option.ne_none_iff_exists'.mp (deltaChain_ne_none hs
    (fun depth _ => min (depth + 1) usizeMax) (fun depth _ => depth) id)
  obtain ⟨result, hmat⟩ := Option.ne_none_iff_exists'.mp (hs.materialize_ne_none id)
  simp only [skipUpdate]
  split
  · exact ⟨none, rfl, by simp⟩
  rename_i entry hget
  rw [hget] at hentry
  split
  · exact ⟨none, rfl, by simp⟩
  rename_i hkind
  rw [ne_eq, not_not] at hkind
  split
  · exact ⟨none, rfl, by simp⟩
  rename_i delta hdelta
  simp only [deltaChainDepth, hchain, hmat, Option.bind_eq_bind, Option.bind_some]
  cases chain with
  | none => exact ⟨none, rfl, by simp⟩
  | some depth =>
    cases result with
    | error e => exact ⟨none, rfl, by simp⟩
    | ok r =>
      obtain ⟨bytes, trace⟩ := r
      obtain ⟨skip, hskip⟩ := Option.ne_none_iff_exists'.mp
        (skipLoop_ne_none hs.materialize_ne_none bytes delta.base depth
          s.config.deltaPolicy.maxSkip 2)
      simp only [buildSkipPatches, hskip, Option.bind_some]
      refine ⟨_, rfl, fun update hupdate => ?_⟩
      cases hupdate
      have hv := materializeInternal_sound hmat
      refine ⟨_, _, _, _, bytes, node_delta hentry hkind hdelta, hv, fun k hk => ?_⟩
      have hbuilt := skipLoop_built (by norm_num) hskip k hk
      obtain ⟨w, hw, hne, hpatch⟩ := hbuilt.patch
      have hdist := hbuilt.distance
      refine ⟨?_, w, hw, ?_⟩
      · rw [chainLoop] at hchain
        simp only [hentry, hkind, ne_eq, not_true_eq_false, if_false, hdelta] at hchain
        exact ancestor_of_chainLoop hchain (by omega) hbuilt.ancestor
      · rw [hpatch]
        exact patchValue_eq_some.mpr (applyPatchBytes_buildPatchBytes hne
          (hs.sound_of_resolves hw).1 (hs.sound_of_resolves hv).1)

theorem skipUpdates_spec (hs : Healthy env s) {order : Order}
    (horder : ∀ p ∈ order, s.index.lookup p.1 = some p.2) (report : DeltaCompactionReport) :
    ∃ updates report', skipUpdates env s order report = some (updates, report') ∧
      ∀ update ∈ updates, UpdateOk env s update := by
  induction order generalizing report with
  | nil => exact ⟨[], report, rfl, by simp⟩
  | cons p ps ih =>
    have ih' := ih (fun q hq => horder q (by simp [hq]))
    obtain ⟨r, hr, hok⟩ := skipUpdate_spec hs p (horder p (by simp))
    obtain ⟨chain, hchain⟩ := Option.ne_none_iff_exists'.mp (deltaChain_ne_none hs
      (fun total e => total + e.bytes.length) (fun total e => total + e.bytes.length) p.1)
    simp only [skipUpdates, hr, deltaChainBytes, hchain, Option.bind_eq_bind, Option.bind_some]
    cases r with
    | none => exact ih' report
    | some update =>
      simp only
      generalize hrep : DeltaCompactionReport.mk _ _ _ _ _ = report1
      obtain ⟨updates, report', hrun, hall⟩ := ih' report1
      refine ⟨update :: updates, report', by rw [hrun]; rfl, fun u hu => ?_⟩
      rcases List.mem_cons.mp hu with rfl | hu
      · exact hok _ rfl
      · exact hall u hu

/-- Storing an update replaces the alternatives of one node. -/
theorem applySkipUpdate_spec (hs : s.WF) (report : DeltaCompactionReport)
    {update : ValueId × ℕ × List SkipPatch} {base : ValueId} {patch : Bytes}
    {skips : List (ValueId × Bytes)} {accepts : Bytes → Bool}
    (hnode : s.node env update.1 = some (.delta base patch skips accepts)) :
    let t := (applySkipUpdate (s, report) update).1
    t.WF ∧ SameIndex s t ∧ (∀ k, k ≠ update.1 → t.node env k = s.node env k) ∧
      t.node env update.1 = some (.delta base patch
        (update.2.2.map (fun k => (k.base, k.patch))) accepts) := by
  obtain ⟨id, depth, skip⟩ := update
  cases hentry : s.entryById id with
  | none => simp [ValueStore.node, hentry] at hnode
  | some entry =>
    obtain ⟨idx, hidx, hget⟩ := Option.bind_eq_some_iff.mp hentry
    by_cases hkind : entry.kind = .delta
    · cases hdelta : entry.delta with
      | none => simp [ValueStore.node, hentry, ValueEntry.node, hkind, hdelta] at hnode
      | some delta =>
        rw [node_delta hentry hkind hdelta] at hnode
        cases hnode
        simp only [applySkipUpdate, hidx, hget, hdelta]
        have hset := ValueStore.entryById_set hs hidx
          { entry with delta := some { delta with depth := depth, skip := skip } }
        refine ⟨ValueStore.set_wf hs idx _, ⟨rfl, rfl⟩, fun k hk => ?_, ?_⟩
        · rw [ValueStore.node, hset, if_neg hk]
          rfl
        · have hid := hset id
          rw [if_pos rfl] at hid
          exact node_delta hid hkind rfl
    · rw [node_cell hentry hkind] at hnode
      cases hnode

theorem applySkipUpdates_spec {updates : List (ValueId × ℕ × List SkipPatch)}
    (hok : ∀ update ∈ updates, UpdateOk env s update) {u : ValueStore}
    (report : DeltaCompactionReport) (hu : u.WF) (hsame : SameIndex s u)
    (hreskip : Reskips patchValue (s.node env) (u.node env)) :
    let t := (updates.foldl applySkipUpdate (u, report)).1
    t.WF ∧ SameIndex s t ∧ Reskips patchValue (s.node env) (t.node env) := by
  induction updates generalizing u report with
  | nil => exact ⟨hu, hsame, hreskip⟩
  | cons update updates ih =>
    obtain ⟨base, patch, skips, accepts, v, hnode, hv, hskips⟩ := (hok update (by simp)).chain
    -- the updated node has the same base and patch as when the update was computed
    obtain ⟨skips', hnode'⟩ : ∃ skips', u.node env update.1 =
        some (.delta base patch skips' accepts) := by
      rcases hreskip update.1 _ hnode with h | ⟨_, _, _, skips', _, hn, h, -⟩
      · exact ⟨skips, h⟩
      · cases hn
        exact ⟨skips', h⟩
    obtain ⟨ht, hsame', hother, hid⟩ := applySkipUpdate_spec hu report hnode'
    rw [List.foldl_cons]
    generalize applySkipUpdate (u, report) update = next at *
    obtain ⟨next, report'⟩ := next
    refine ih (fun w hw => hok w (by simp [hw])) report' ht (hsame.trans hsame') fun k n hn => ?_
    by_cases hk : k = update.1
    · subst hk
      rw [hnode] at hn
      cases hn
      refine .inr ⟨_, _, _, _, _, rfl, hid, fun w hw q hq => ?_⟩
      obtain ⟨sk, hsk, rfl⟩ := List.mem_map.mp hq
      rw [hw.functional hv]
      exact hskips sk hsk
    · rw [hother k hk]
      exact hreskip k n hn

/-- Compacting a healthy store returns, whatever the iteration orders, and keeps every
value. -/
theorem compactDeltas_spec (hs : Healthy env s) (order : Order) {order' : Order}
    (horder' : order'.Perm s.index.entries) :
    ∃ t report, compactDeltas env s order order' = some (t, report) ∧ Healthy env t ∧
      Keeps env s t ∧ SameIndex s t := by
  obtain ⟨t, report, hrun, ht, hkeeps, hsame⟩ :=
    rewrite_run_spec hs ⟨0, 0, 0, 0, 0⟩ (rewriteIds s order)
  simp only [compactDeltas, hrun, Option.bind_eq_bind, Option.bind_some]
  split
  · have hlookup : ∀ p ∈ order', t.index.lookup p.1 = some p.2 := by
      intro p hp
      rw [hsame.index]
      exact AList.mem_lookup_iff.mpr (horder'.mem_iff.mp hp)
    obtain ⟨updates, report', hupdates, hok⟩ := skipUpdates_spec ht hlookup report
    obtain ⟨hu, hsame', hreskip⟩ := applySkipUpdates_spec hok report' ht.wf ⟨rfl, rfl⟩
      (fun k n hn => .inl hn)
    have hkeeps' : Keeps env t (updates.foldl applySkipUpdate (t, report')).1 :=
      fun _ _ hk => hk.reskip hreskip
    refine ⟨_, _, by rw [hupdates]; rfl, ht.keeps hu hsame'.index hkeeps', hkeeps.trans hkeeps',
      hsame.trans hsame'⟩
  · exact ⟨t, report, rfl, ht, hkeeps, hsame⟩

end Compaction

end SkeinDB.Values
