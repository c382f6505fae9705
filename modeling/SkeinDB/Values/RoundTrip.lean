import SkeinDB.Values.Persistence
import SkeinDB.Values.Fidelity

/-!
# Round trips through segments and transfers

A base-closed part of a store is written to a segment and loaded, or exported and imported in
any order. The new store holds the same ids with the same bytes, every base, and no cycle.
-/
namespace SkeinDB.Values
open SkeinDB.Codec SkeinDB.Format SkeinDB.Delta

/-- The delta stored for `id` is a patch against `base`. -/
def BaseOf (s : ValueStore) (id base : ValueId) : Prop :=
  ∃ entry delta, s.entryById id = some entry ∧ entry.kind = .delta ∧
    entry.delta = some delta ∧ delta.base = base

/-- Distinct stored ids that hold the base of every delta among them. -/
structure BaseClosed (s : ValueStore) (ids : List ValueId) : Prop where
  nodup : ids.Nodup
  stored : ∀ id ∈ ids, id ∈ s.index
  bases : ∀ id ∈ ids, ∀ base, BaseOf s id base → base ∈ ids

/-- The ids with their entries. -/
def ValueStore.pairs (s : ValueStore) (ids : List ValueId) : List (ValueId × ValueEntry) :=
  ids.filterMap fun id => (s.entryById id).map fun entry => (id, entry)

/-- The exports of a list of ids, one after the other. -/
def ValueStore.exportAll (z : Zstd) : ValueStore → List ValueId → Except ValueStoreError (List Bytes)
  | _, [] => .ok []
  | s, id :: ids =>
    match s.exportTransferEntry z id with
    | (.error e, _) => .error e
    | (.ok payload, s) => (exportAll z s ids).map (payload :: ·)

/-- `t` holds exactly the ids, each with the bytes it has in `s`, every base, and no cycle. -/
structure Restored (env : Env) (s : ValueStore) (ids : List ValueId) (t : ValueStore) : Prop where
  index : ∀ id, id ∈ t.index ↔ id ∈ ids
  bytes : ∀ id ∈ ids, ∃ v, (∃ trace, materializeInternal env s id false = some (.ok (v, trace))) ∧
    materialize env t id = some (.ok v) ∧
    ∃ trace, materializeInternal env t id false = some (.ok (v, trace))
  bases : ∀ id entry, t.entryById id = some entry → entry.kind = .delta →
    ∃ base, BaseOf t id base ∧ base ∈ t.index
  acyclic : ∀ id, ¬ Relation.TransGen (BaseOf t) id id

section Acyclic
variable {env : Env} {s : ValueStore}

theorem BaseOf.chainEnds {id base : ValueId} (h : BaseOf s id base) {n : ℕ}
    (hid : ChainEnds env s n id) : ∃ m, m < n ∧ ChainEnds env s m base := by
  cases n with
  | zero => exact hid.elim
  | succ n =>
    obtain ⟨entry, delta, hentry, hkind, hdelta, rfl⟩ := h
    obtain ⟨entry', hentry', hkind' | ⟨delta', -, hdelta', hbase⟩⟩ := hid.cases
    · rw [hentry] at hentry'
      cases hentry'
      exact absurd hkind hkind'
    · rw [hentry] at hentry'
      cases hentry'
      rw [hdelta] at hdelta'
      cases hdelta'
      exact ⟨n, Nat.lt_succ_self n, hbase⟩

theorem chainEnds_of_transGen {id k : ValueId} (h : Relation.TransGen (BaseOf s) id k) {n : ℕ}
    (hid : ChainEnds env s n id) : ∃ m, m < n ∧ ChainEnds env s m k := by
  induction h with
  | single h => exact h.chainEnds hid
  | tail _ h ih =>
    obtain ⟨m, hm, hmid⟩ := ih
    obtain ⟨m', hm', hk⟩ := h.chainEnds hmid
    exact ⟨m', hm'.trans hm, hk⟩

/-- A chain that ends does not come back to its start. -/
theorem ChainEnds.acyclic {n : ℕ} {id : ValueId} (h : ChainEnds env s n id) :
    ¬ Relation.TransGen (BaseOf s) id id := by
  intro hcycle
  induction n using Nat.strong_induction_on with
  | _ n ih =>
    obtain ⟨m, hm, hid⟩ := chainEnds_of_transGen hcycle h
    exact ih m hm hid

theorem baseOf_stored (hs : s.WF) {id k : ValueId} (h : Relation.TransGen (BaseOf s) id k) :
    id ∈ s.index := by
  have hbase : ∀ {a b : ValueId}, BaseOf s a b → a ∈ s.index := by
    rintro a b ⟨entry, -, hentry, -⟩
    rw [← ValueStore.entryById_isSome hs, hentry]
    rfl
  induction h with
  | single h => exact hbase h
  | tail _ _ ih => exact ih

end Acyclic

section Entries
variable {env : Env} {s : ValueStore} {ids : List ValueId} {es : List ValueSegmentEntry}

theorem mem_pairs {e : ValueId × ValueEntry} :
    e ∈ s.pairs ids ↔ e.1 ∈ ids ∧ s.entryById e.1 = some e.2 := by
  simp only [ValueStore.pairs, List.mem_filterMap, Option.map_eq_some_iff]
  constructor
  · rintro ⟨id, hid, entry, hentry, rfl⟩
    exact ⟨hid, hentry⟩
  · rintro ⟨hid, hentry⟩
    exact ⟨e.1, hid, e.2, hentry, rfl⟩

theorem pairs_cons {id : ValueId} {entry : ValueEntry} (h : s.entryById id = some entry)
    (ids : List ValueId) : s.pairs (id :: ids) = (id, entry) :: s.pairs ids := by
  simp [ValueStore.pairs, h]

theorem pairs_ids (hs : s.WF) (h : ∀ id ∈ ids, id ∈ s.index) : (s.pairs ids).map Prod.fst = ids := by
  induction ids with
  | nil => rfl
  | cons id ids ih =>
    obtain ⟨entry, hentry⟩ := Option.isSome_iff_exists.mp
      ((ValueStore.entryById_isSome hs).mpr (h id (by simp)))
    rw [pairs_cons hentry, List.map_cons, ih (fun k hk => h k (by simp [hk]))]

theorem filterMap_eq_zip {α β : Type*} {f : α → Option (α × β)} {as : List α} {bs : List β}
    (hlen : as.length = bs.length)
    (h : ∀ (i : ℕ) a b, as[i]? = some a → bs[i]? = some b → f a = some (a, b)) :
    as.filterMap f = as.zip bs := by
  induction as generalizing bs with
  | nil => simp
  | cons a as ih =>
    cases bs with
    | nil => simp at hlen
    | cons b bs =>
      rw [List.filterMap_cons, h 0 a b rfl rfl, List.zip_cons_cons]
      rw [ih (by simpa using hlen) fun i a b ha hb => h (i + 1) a b (by simpa using ha)
        (by simpa using hb)]

/-- The pairs of all ids are what `write_segment_file` writes. -/
theorem pairs_entryIds (hs : s.WF) : s.pairs s.entryIds = s.entryIds.zip s.entries := by
  refine filterMap_eq_zip hs.lengths fun i id entry hid hentry => ?_
  simp [ValueStore.entryById, (hs.lookup id i).mpr hid, hentry]

/-- The entries that a round trip hands to the new store, in any order. -/
def Carries (s : ValueStore) (ids : List ValueId) (es : List ValueSegmentEntry) : Prop :=
  es.Perm ((s.pairs ids).map storedEntry)

theorem Carries.mem (h : Carries s ids es) {e : ValueSegmentEntry} :
    e ∈ es ↔ e.id ∈ ids ∧ ∃ entry, s.entryById e.id = some entry ∧ e.entry = entry.stored := by
  rw [h.mem_iff, List.mem_map]
  constructor
  · rintro ⟨p, hp, rfl⟩
    obtain ⟨hid, hentry⟩ := mem_pairs.mp hp
    exact ⟨hid, p.2, hentry, rfl⟩
  · rintro ⟨hid, entry, hentry, heq⟩
    refine ⟨(e.id, entry), mem_pairs.mpr ⟨hid, hentry⟩, ?_⟩
    rw [storedEntry, ← heq]

theorem Carries.nodup (h : Carries s ids es) (hs : s.WF) (hids : BaseClosed s ids) :
    (es.map (·.id)).Nodup := by
  have hperm := h.map (·.id)
  rw [hperm.nodup_iff, List.map_map]
  change ((s.pairs ids).map Prod.fst).Nodup
  rw [pairs_ids hs hids.stored]
  exact hids.nodup

theorem find_of_nodup (h : (es.map (·.id)).Nodup) {e : ValueSegmentEntry} (he : e ∈ es) :
    es.find? (fun x => x.id = e.id) = some e := by
  induction es with
  | nil => simp at he
  | cons x es ih =>
    rw [List.map_cons, List.nodup_cons] at h
    rcases List.mem_cons.mp he with rfl | he
    · simp
    · have hne : x.id ≠ e.id := fun heq => h.1 (heq ▸ List.mem_map_of_mem he)
      rw [List.find?_cons_of_neg (by simpa using hne)]
      exact ih h.2 he

/-- The new store looks up exactly the carried ids. -/
theorem Carries.look (h : Carries s ids es) (hs : s.WF) (hids : BaseClosed s ids)
    (config : ValueStoreConfig) (id : ValueId) :
    (ValueStore.new config).mergedEntry es id =
      if id ∈ ids then (s.entryById id).map ValueEntry.stored else none := by
  have hempty : (ValueStore.new config).entryById id = none := rfl
  rw [ValueStore.mergedEntry, hempty, Option.none_or]
  by_cases hid : id ∈ ids
  · obtain ⟨entry, hentry⟩ := Option.isSome_iff_exists.mp
      ((ValueStore.entryById_isSome hs).mpr (hids.stored id hid))
    have he : (⟨id, entry.stored⟩ : ValueSegmentEntry) ∈ es := h.mem.mpr ⟨hid, entry, hentry, rfl⟩
    rw [if_pos hid, hentry, find_of_nodup (h.nodup hs hids) he]
    rfl
  · rw [if_neg hid, Option.map_eq_none_iff, List.find?_eq_none]
    intro e he heq
    rw [decide_eq_true_eq] at heq
    exact hid (heq ▸ (h.mem.mp he).1)

theorem stored_node (id : ValueId) (entry : ValueEntry) :
    entry.stored.node env id = (entry.node env id).map Node.dropSkips := by
  by_cases hkind : entry.kind = .delta
  · cases hdelta : entry.delta <;>
      simp [ValueEntry.stored, ValueEntry.node, ValueEntry.plain, hkind, hdelta, Node.dropSkips]
  · simp [ValueEntry.stored, ValueEntry.node, hkind, Node.dropSkips]

theorem Carries.mergedNode (h : Carries s ids es) (hs : s.WF) (hids : BaseClosed s ids)
    (config : ValueStoreConfig) {id : ValueId} (hid : id ∈ ids) :
    (ValueStore.new config).mergedNode env es id = (s.node env id).map Node.dropSkips := by
  rw [ValueStore.mergedNode, h.look hs hids, if_pos hid, ValueStore.node]
  cases s.entryById id with
  | none => rfl
  | some entry => simp [stored_node]

/-- Every carried id that resolves in the old store resolves in the new one. -/
theorem Carries.resolves (h : Carries s ids es) (hs : s.WF) (hids : BaseClosed s ids)
    (config : ValueStoreConfig) {id : ValueId} (hid : id ∈ ids) {v : Bytes}
    (hv : Resolves patchValue (s.node env) id v) :
    Resolves patchValue ((ValueStore.new config).mergedNode env es) id v := by
  refine hv.restrict (fun k hk => h.mergedNode hs hids config hk) ?_ hid
  intro k base patch skips accepts hk hnode
  rw [← nodeFor_true] at hnode
  obtain ⟨entry, hentry, ⟨-, heq⟩ | ⟨delta, hkind, hdelta, heq⟩⟩ := nodeFor_cases hnode
  · cases heq
  · cases heq
    exact hids.bases k hk _ ⟨entry, delta, hentry, hkind, hdelta, rfl⟩

theorem Carries.allResolve (h : Carries s ids es) (hs : s.WF) (hids : BaseClosed s ids)
    (hres : ∀ id ∈ ids, ∃ v, Resolves patchValue (s.node env) id v)
    (config : ValueStoreConfig) : AllResolve env (.new config) es := by
  intro id hsome
  rw [h.look hs hids] at hsome
  split at hsome
  · rename_i hid
    obtain ⟨v, hv⟩ := hres id hid
    exact ⟨v, h.resolves hs hids config hid hv⟩
  · cases hsome

/-- Inserting the carried entries into a fresh store and recomputing restores the part. -/
theorem Carries.restored (h : Carries s ids es) (hs : s.WF) (hids : BaseClosed s ids)
    (hres : ∀ id ∈ ids, ∃ v, Resolves patchValue (s.node env) id v) {config : ValueStoreConfig}
    {p q u : ValueStore} (hp : p.WF)
    (hlook : ∀ id, p.entryById id = (ValueStore.new config).mergedEntry es id)
    (hreset : Reset p q) (hlearned : u = q ∨ u = q.refreshLearnedIndex env)
    (hskips : ∀ id ∈ p.index, NoSkips q id) : Restored env s ids u := by
  obtain ⟨hu, hindex, hsame, hiff⟩ := recomputed_frame hp hreset hlearned
  have hnode : p.node env = (ValueStore.new config).mergedNode env es := by
    funext id
    rw [ValueStore.node, ValueStore.mergedNode, hlook]
  have hmem (id : ValueId) : id ∈ u.index ↔ id ∈ ids := by
    rw [hindex, ← ValueStore.entryById_isSome hp, hlook, h.look hs hids]
    by_cases hid : id ∈ ids
    · simpa [hid, ValueStore.entryById_isSome hs] using hids.stored id hid
    · simp [hid]
  have hvalue : ∀ id ∈ ids, ∃ v, Resolves patchValue (s.node env) id v ∧
      Resolves patchValue (u.node env) id v := by
    intro id hid
    obtain ⟨v, hv⟩ := hres id hid
    refine ⟨v, hv, (hiff id v).mpr ?_⟩
    rw [hnode]
    exact h.resolves hs hids config hid hv
  have hnoskips : ∀ id ∈ u.index, NoSkips u id := fun id hid =>
    (hskips id (hindex ▸ hid)).same hsame
  refine ⟨hmem, fun id hid => ?_, fun id entry hentry hkind => ?_, fun id hcycle => ?_⟩
  · obtain ⟨v, hv, huv⟩ := hvalue id hid
    obtain ⟨hmat, -, hplain⟩ := materialize_ok hu (sound_of_noSkips hu hnoskips huv)
    exact ⟨v, (materializeInternal_iff hs).mpr hv, hmat, hplain⟩
  · have hid : id ∈ ids := by
      rw [← hmem, ← ValueStore.entryById_isSome hu, hentry]
      rfl
    obtain ⟨v, -, huv⟩ := hvalue id hid
    cases huv with
    | cell hcell =>
      rw [← nodeFor_true] at hcell
      obtain ⟨e, he, ⟨hne, -⟩ | ⟨_, _, _, heq⟩⟩ := nodeFor_cases hcell
      · rw [hentry] at he
        cases he
        exact absurd hkind hne
      · cases heq
    | delta hdelta hbase =>
      rw [← nodeFor_true] at hdelta
      obtain ⟨e, he, ⟨_, heq⟩ | ⟨d, hk, hd, heq⟩⟩ := nodeFor_cases hdelta
      · cases heq
      · cases heq
        exact ⟨d.base, ⟨e, d, he, hk, hd, rfl⟩, mem_index_of_resolves hu hbase⟩
  · obtain ⟨v, -, huv⟩ := hvalue id ((hmem id).mp (baseOf_stored hu hcycle))
    obtain ⟨n, hn⟩ := Resolves.grounded huv
    exact ChainEnds.acyclic hn hcycle

end Entries

section RoundTrip
variable {env : Env} {z : Zstd} {s : ValueStore} {ids : List ValueId}

theorem encode_of_resolves {id : ValueId} {entry : ValueEntry} {v : Bytes}
    (hentry : s.entryById id = some entry) (hv : Resolves patchValue (s.node env) id v) :
    ∃ payload, encodeVsegEntry z id entry = .ok payload := by
  have hraw : ∃ r, entry.rawBytes = .ok r := by
    by_cases hkind : entry.kind = .delta
    · cases hdelta : entry.delta with
      | none =>
        have hsome := hv.isSome
        simp [ValueStore.node, hentry, ValueEntry.node, hkind, hdelta] at hsome
      | some delta => exact ⟨_, by simp only [ValueEntry.rawBytes, hkind, hdelta]; rfl⟩
    · exact ⟨(entry.bytes.length, entry.bytes), by simp [ValueEntry.rawBytes, hkind]⟩
  obtain ⟨⟨rawLen, raw⟩, hraw⟩ := hraw
  exact ⟨_, by simp only [encodeVsegEntry, hraw]; rfl⟩

/-- Exporting ids that resolve gives payloads of their entries as stored. -/
theorem exportAll_ok (hz : z.Lossless) (h : Reachable env s) (hids : ∀ id ∈ ids, id ∈ s.index)
    (hres : ∀ id ∈ ids, ∃ v, Resolves patchValue (s.node env) id v) :
    ∃ payloads, s.exportAll z ids = .ok payloads ∧
      payloads.mapM (decodeTransferEntry z) = .ok ((s.pairs ids).map storedEntry) := by
  induction ids generalizing s with
  | nil => exact ⟨[], rfl, rfl⟩
  | cons id ids ih =>
    obtain ⟨entry, hentry⟩ := Option.isSome_iff_exists.mp
      ((ValueStore.entryById_isSome h.lookupInv.wf).mpr (hids id (by simp)))
    obtain ⟨v, hv⟩ := hres id (by simp)
    obtain ⟨payload, hpayload⟩ : ∃ payload, encodeVsegEntry z id entry = .ok payload :=
      encode_of_resolves hentry hv
    have hexport : s.exportTransferEntry z id = (.ok payload, (s.get id).2) := by
      simp only [ValueStore.exportTransferEntry, h.lookupInv.get_fst id, hentry, hpayload]
    have hsame : ∀ k, (s.get id).2.entryById k = s.entryById k := by
      intro k
      rw [get_snd]
      rfl
    have hnode : (s.get id).2.node env = s.node env := node_congr hsame
    have hindex : (s.get id).2.index = s.index := by rw [get_snd]
    obtain ⟨payloads, hpayloads, hdecode⟩ := ih (h.get id)
      (fun k hk => by rw [hindex]; exact hids k (by simp [hk]))
      (fun k hk => by rw [hnode]; exact hres k (by simp [hk]))
    have hpairs : (s.get id).2.pairs ids = s.pairs ids := by
      simp only [ValueStore.pairs, hsame]
    refine ⟨payload :: payloads, ?_, ?_⟩
    · simp only [ValueStore.exportAll, hexport, hpayloads]
      rfl
    · rw [List.mapM_cons, hdecode, hpairs, pairs_cons hentry, decodeTransferEntry,
        decodeVsegEntry_encode hz (h.sizes.entry hentry) hpayload]
      rfl

/-- A part of a store comes back from transfers, imported in any order, and from segments, which
are written exactly if the part fits. -/
structure RoundTrips (env : Env) (z : Zstd) (s : ValueStore) (ids : List ValueId) : Prop where
  transfer : ∃ payloads es, s.exportAll z ids = .ok payloads ∧
    payloads.mapM (decodeTransferEntry z) = .ok es ∧
    ∀ config es', es'.Perm es → ∃ n t,
      (ValueStore.new config).importTransferEntries env es' = some (.ok n, t) ∧
        Restored env s ids t
  written : ∀ now, (∃ file, ValueSegmentWriter.writeAll z now (s.pairs ids) = .ok file) ↔
    FitsSegment z (s.pairs ids)
  segment : ∀ now config file, ValueSegmentWriter.writeAll z now (s.pairs ids) = .ok file →
    ∃ t, loadSegmentFile env z config file = some (.ok t) ∧ Restored env s ids t
  limits : ∀ now err, ValueSegmentWriter.writeAll z now (s.pairs ids) = .error err →
    (∃ n, err = .format (.recordFrameTooLarge n)) ∨ err = .io .fileTooLarge

theorem roundTrips_of_resolves (hz : z.Lossless) (h : Reachable env s) (hids : BaseClosed s ids)
    (hres : ∀ id ∈ ids, ∃ v, Resolves patchValue (s.node env) id v) : RoundTrips env z s ids := by
  have hs := h.lookupInv.wf
  have hencode : ∀ e ∈ s.pairs ids, ∃ payload, encodeVsegEntry z e.1 e.2 = .ok payload := by
    intro e he
    obtain ⟨hid, hentry⟩ := mem_pairs.mp he
    obtain ⟨v, hv⟩ := hres e.1 hid
    exact encode_of_resolves hentry hv
  refine ⟨?_, fun now => writeAll_ok_iff hencode, fun now config file hfile => ?_,
    fun now err herr => writeAll_error hencode herr⟩
  · obtain ⟨payloads, hexport, hdecode⟩ := exportAll_ok hz h hids.stored hres
    refine ⟨payloads, _, hexport, hdecode, fun config es' hperm => ?_⟩
    have hcarries : Carries s ids es' := hperm
    have hnew := ValueStore.new_wf config
    obtain ⟨r, p, q, u, hrun, hrec, hcases⟩ := importTransferEntries_spec env hnew es'
    have hp := hrec.pushes.wf hnew
    have hall := hcarries.allResolve hs hids hres config
    obtain ⟨n, rfl, hskips⟩ : ∃ n, r = .ok n ∧ ∀ id ∈ p.index, NoSkips q id := by
      rcases hcases with ⟨hpresent, rfl, -⟩ | ⟨-, -, hok, hskips⟩
      · -- nothing is carried, so nothing is stored
        have hnil : es' = [] := by
          refine List.eq_nil_iff_forall_not_mem.mpr fun e he => ?_
          have hmem := hpresent e he
          simp [ValueStore.new] at hmem
        refine ⟨0, rfl, fun id hid => ?_⟩
        rw [← ValueStore.entryById_isSome hp, hrec.look, hnil] at hid
        cases hid
      · obtain ⟨n, rfl⟩ := hok.mpr hall
        exact ⟨n, rfl, hskips ⟨n, rfl⟩⟩
    exact ⟨n, u, hrun, hcarries.restored hs hids hres hp hrec.look hrec.reset hrec.learned hskips⟩
  · have hfit : ∀ e ∈ s.pairs ids, e.2.Storable := fun e he =>
      h.sizes.entry (mem_pairs.mp he).2
    obtain ⟨hheader, hread⟩ := readSegment_writeAll hz hfit hfile
    have hcarries : Carries s ids ((s.pairs ids).map storedEntry) := List.Perm.refl _
    have hnew := ValueStore.new_wf config
    obtain ⟨p, hload, hpush, hlook⟩ := loadLoop_spec hnew
      (fun e _ => by simp [ValueStore.new]) (hcarries.nodup hs hids)
    have hp := hpush.wf hnew
    obtain ⟨r, q, u, hrec, hreset, hlearned, hok, hskips⟩ := recompute_spec env hp
    obtain rfl : r = .ok () :=
      hok.mpr ((allResolve_iff hp hlook).mpr (hcarries.allResolve hs hids hres config))
    refine ⟨u, ?_, hcarries.restored hs hids hres hp hlook hreset hlearned (hskips rfl)⟩
    simp only [loadSegmentFile, hheader, hread, ValueStore.loadStore, hload, hrec]

/-- An import succeeds exactly if it brings nothing new or everything resolves. -/
theorem import_ok_iff (h : Reachable env s) (es : List ValueSegmentEntry) :
    (∃ n t, s.importTransferEntries env es = some (.ok n, t)) ↔
      (∀ e ∈ es, e.id ∈ s.index) ∨ AllResolve env s es := by
  obtain ⟨r, p, q, u, hrun, -, hcases⟩ := importTransferEntries_spec env h.lookupInv.wf es
  rw [hrun]
  rcases hcases with ⟨hall, rfl, rfl⟩ | ⟨⟨e, he, hid⟩, -, hok, -⟩
  · exact ⟨fun _ => .inl hall, fun _ => ⟨0, _, rfl⟩⟩
  · constructor
    · rintro ⟨n, t, hn⟩
      cases hn
      exact .inr (hok.mp ⟨n, rfl⟩)
    · rintro (hall | hresolve)
      · exact absurd (hall e he) hid
      · obtain ⟨n, rfl⟩ := hok.mpr hresolve
        exact ⟨n, u, rfl⟩

/-- Persistence round trip. In a run whose imports all resolve and that puts nothing of kind
delta, every id materializes, with and without skip patches, and every base-closed part of the
store round-trips. In any reachable store a base-closed part round-trips exactly when each of its
ids materializes base by base. A segment of the whole store is what `write_segment_file` writes. -/
theorem persistence_round_trip (hz : z.Lossless) (env : Env) :
    (∀ s, CleanRun env s →
      (∀ es, (∃ n t, s.importTransferEntries env es = some (.ok n, t)) ↔
        (∀ e ∈ es, e.id ∈ s.index) ∨ AllResolve env s es) ∧
      (∀ id ∈ s.index, ∃ v, materialize env s id = some (.ok v) ∧
        ∃ trace, materializeInternal env s id false = some (.ok (v, trace))) ∧
      (∀ ids, BaseClosed s ids → RoundTrips env z s ids) ∧ BaseClosed s s.entryIds) ∧
    (∀ s ids, Reachable env s → BaseClosed s ids →
      (RoundTrips env z s ids ↔
        ∀ id ∈ ids, ∃ v trace, materializeInternal env s id false = some (.ok (v, trace)))) ∧
    ∀ s now, Reachable env s →
      s.writeSegmentFile z now = ValueSegmentWriter.writeAll z now (s.pairs s.entryIds) := by
  refine ⟨fun s h => ?_, fun s ids h hids => ⟨fun htrips id hid => ?_, fun hmat => ?_⟩,
    fun s now h => ?_⟩
  · have hs := h.healthy
    have hres : ∀ id ∈ s.index, ∃ v, Resolves patchValue (s.node env) id v := by
      intro id hid
      obtain ⟨v, -, hv⟩ := hs.sound id hid
      exact ⟨v, hv.resolves⟩
    refine ⟨import_ok_iff h.reachable, fun id hid => ?_, fun ids hids => ?_, ?_, fun id hid => ?_,
      fun id hid base hbase => ?_⟩
    · obtain ⟨v, -, hv⟩ := hs.sound id hid
      obtain ⟨hmat, -, hplain⟩ := materialize_ok hs.wf hv
      exact ⟨v, hmat, hplain⟩
    · exact roundTrips_of_resolves hz h.reachable hids fun id hid => hres id (hids.stored id hid)
    · exact hs.wf.nodup
    · exact (ValueStore.mem_index_iff hs.wf).mpr hid
    · obtain ⟨entry, delta, hentry, hkind, hdelta, rfl⟩ := hbase
      obtain ⟨v, hv⟩ := hres id ((ValueStore.mem_index_iff hs.wf).mpr hid)
      rw [← ValueStore.mem_index_iff hs.wf]
      cases hv with
      | cell hnode => simp [node_delta hentry hkind hdelta] at hnode
      | delta hnode hb =>
        rw [node_delta hentry hkind hdelta] at hnode
        cases hnode
        exact mem_index_of_resolves hs.wf hb
  · obtain ⟨payloads, es, -, -, himport⟩ := htrips.transfer
    obtain ⟨n, t, -, ht⟩ := himport s.config es (.refl es)
    obtain ⟨v, ⟨trace, hv⟩, -⟩ := ht.bytes id hid
    exact ⟨v, trace, hv⟩
  · refine roundTrips_of_resolves hz h hids fun id hid => ?_
    obtain ⟨v, trace, hv⟩ := hmat id hid
    exact ⟨v, materializeInternal_sound hv⟩
  · rw [ValueStore.writeSegmentFile, pairs_entryIds h.lookupInv.wf]

end RoundTrip

/-- A delta that names itself as its base. -/
def selfDelta : ValueSegmentEntry :=
  ⟨sampleEnv.valueId [1, 2, 3], .delta, [], some ⟨sampleEnv.valueId [1, 2, 3], 0, 0, []⟩⟩

/-- The failed import leaves a cycle, which is base-closed and cannot be carried over. -/
theorem failed_import_breaks_round_trip : ∃ err s,
    (ValueStore.new sampleConfig).importTransferEntries sampleEnv [selfDelta] =
        some (.error err, s) ∧
      Reachable sampleEnv s ∧ BaseClosed s [selfDelta.id] ∧
      ∀ z : Zstd, ¬ RoundTrips sampleEnv z s [selfDelta.id] := by
  have hfits : ∀ e ∈ [selfDelta], e.entry.Fits := by
    intro e he
    cases List.mem_singleton.mp he
    exact ⟨by decide, by simp [selfDelta]⟩
  refine ⟨_, _, rfl, .importTransferEntries (.new sampleConfig) hfits rfl, ?_, fun z h => ?_⟩
  · refine ⟨List.nodup_singleton _, ?_, ?_⟩
    · intro id hid
      cases List.mem_singleton.mp hid
      decide
    · rintro id hid base ⟨entry, delta, hentry, -, hdelta, rfl⟩
      cases List.mem_singleton.mp hid
      cases hentry
      cases hdelta
      exact List.mem_singleton_self _
  · obtain ⟨payloads, es, -, -, himport⟩ := h.transfer
    obtain ⟨n, t, -, ht⟩ := himport sampleConfig es (.refl es)
    obtain ⟨v, ⟨trace, hv⟩, -⟩ := ht.bytes selfDelta.id (List.mem_singleton_self _)
    cases hv

/-- Compression of inputs that do not shrink: one raw block behind a frame header. -/
def rawFrames : Zstd where
  encodeAll b := [0x28, 0xB5, 0x2F, 0xFD, 0x00, 0x58] ++ leBytes 3 (8 * b.length + 1) ++ b
  decodeAll b := .ok (b.drop 9)

theorem rawFrames_lossless : rawFrames.Lossless := by
  intro b
  simp only [rawFrames]
  rw [List.drop_left' (by simp)]

/-- A value and a delta against it round-trip. -/
theorem persistence_round_trip_delta :
    ∃ s, CleanRun sampleEnv s ∧
      s.entryIds = [sampleEnv.valueId [1, 2, 3], sampleEnv.valueId [1, 2, 3, 4]] ∧
      (s.entries.map (·.kind)) = [.cell, .delta] ∧
      FitsSegment rawFrames (s.pairs s.entryIds) ∧ RoundTrips sampleEnv rawFrames s s.entryIds := by
  have hkind : ValueKind.cell ≠ .delta := by decide
  have hlen3 : ([1, 2, 3] : Bytes).length < 2 ^ 63 := by simp
  have hlen4 : ([1, 2, 3, 4] : Bytes).length < 2 ^ 63 := by simp
  have hs : CleanRun sampleEnv
      ((ValueStore.new sampleConfig).put sampleEnv .cell [1, 2, 3]).1 :=
    .putWithId (.new sampleConfig) hkind (sampleEnv.valueId [1, 2, 3]) hlen3
  obtain ⟨t, ht, hids, hkinds, hframe, hfile⟩ : ∃ t,
      putWithDelta sampleEnv ((ValueStore.new sampleConfig).put sampleEnv .cell [1, 2, 3]).1 .cell
        [1, 2, 3, 4] (some (sampleEnv.valueId [1, 2, 3])) =
          some (t, sampleEnv.valueId [1, 2, 3, 4]) ∧
      t.entryIds = [sampleEnv.valueId [1, 2, 3], sampleEnv.valueId [1, 2, 3, 4]] ∧
      t.entries.map (·.kind) = [.cell, .delta] ∧
      (∀ payload ∈ segmentPayloads rawFrames (t.pairs t.entryIds), payload.length < 2 ^ 32) ∧
      fileHeaderLen + ((segmentPayloads rawFrames (t.pairs t.entryIds)).map fun payload =>
        (recordFrame payload).length).sum < 2 ^ 63 :=
    ⟨_, rfl, rfl, rfl, by decide +kernel, by decide +kernel⟩
  have hclean := CleanRun.putWithDelta hs hkind hlen4 ht
  obtain ⟨-, -, htrips, hclosed⟩ :=
    (persistence_round_trip rawFrames_lossless sampleEnv).1 t hclean
  exact ⟨t, hclean, hids, hkinds, ⟨hframe, hfile⟩, htrips _ hclosed⟩

end SkeinDB.Values
