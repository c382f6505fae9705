import SkeinDB.Values.LearnedIndex

/-!
# Imports that fail

An import inserts before it checks, so a failing import leaves its entries behind. It is
atomic exactly when it has nothing to insert or nothing to object to. The values that
resolved before are kept either way.
-/
namespace SkeinDB.Values
open SkeinDB.Codec SkeinDB.Format SkeinDB.Delta

variable {env : Env} {s t : ValueStore}

/-- The parts of a store that an atomic import leaves alone. -/
structure Unchanged (s t : ValueStore) : Prop where
  entries : t.entries = s.entries
  entryIds : t.entryIds = s.entryIds
  index : t.index = s.index
  bloom : t.bloom = s.bloom

theorem mergedNode_refines (es : List ValueSegmentEntry) :
    Refines patchValue (s.node env) (s.mergedNode env es) := by
  intro id n hn
  left
  cases hentry : s.entryById id with
  | none => simp [ValueStore.node, hentry] at hn
  | some entry =>
    rw [ValueStore.node, hentry] at hn
    rw [ValueStore.mergedNode, ValueStore.mergedEntry, hentry]
    exact hn

/-- An import, failing or not, keeps the value of every id that resolves. -/
theorem import_keeps_resolves (hs : s.WF) {es : List ValueSegmentEntry}
    {r : Except ValueStoreError ℕ} (h : s.importTransferEntries env es = some (r, t))
    {id : ValueId} {v : Bytes} (hid : Resolves patchValue (s.node env) id v) :
    Resolves patchValue (t.node env) id v := by
  obtain ⟨r', p, q, u, hrun, hrec, -⟩ := importTransferEntries_spec env hs es
  rw [hrun] at h
  cases h
  have hmerged : p.node env = s.mergedNode env es := by
    funext k
    rw [ValueStore.node, ValueStore.mergedNode, hrec.look]
  have hq : Resolves patchValue (q.node env) id v := by
    rw [hrec.reset.resolves, hmerged]
    exact hid.refine (mergedNode_refines es)
  have hnode : t.node env = q.node env := by
    funext k
    rw [ValueStore.node, ValueStore.node, hrec.same.entryById]
  rwa [hnode]

/-- In every reachable store an import returns, and leaves the store alone on an error exactly
when every listed id is present already or every delta of the store and the list resolves over
both. -/
theorem import_atomic_iff (h : Reachable env s) (es : List ValueSegmentEntry) :
    (∃ r t, s.importTransferEntries env es = some (r, t)) ∧
      ((∀ e t, s.importTransferEntries env es = some (.error e, t) → Unchanged s t) ↔
        (∀ e ∈ es, e.id ∈ s.index) ∨ AllResolve env s es) := by
  obtain ⟨r, p, q, u, hrun, -, hcases⟩ := importTransferEntries_spec env h.lookupInv.wf es
  refine ⟨⟨r, u, hrun⟩, ?_⟩
  rw [hrun]
  rcases hcases with ⟨hall, rfl, rfl⟩ | ⟨⟨e, he, hid⟩, hlen, hok, -⟩
  · refine ⟨fun _ => .inl hall, fun _ e t herr => ?_⟩
    cases herr
  · constructor
    · intro hatomic
      right
      rw [← hok]
      cases r with
      | ok n => exact ⟨n, rfl⟩
      | error err =>
        have hsame := (hatomic err u rfl).entries
        rw [hsame] at hlen
        omega
    · rintro (hall | hresolve) err t herr
      · exact absurd (hall e he) hid
      · obtain ⟨n, rfl⟩ := hok.mpr hresolve
        cases herr

def sampleId (b : UInt8) : ValueId := ⟨List.replicate 16 b, rfl⟩

def emptyStore : ValueStore :=
  .new ⟨false, 64, ⟨1, 1, fun _ _ => false⟩, ⟨false, 0, 0, fun _ _ => false, 0, 0⟩⟩

/-- An environment for imports that compute no hash. -/
def zeroEnv : Env := ⟨fun _ => sampleId 0, fun _ _ => ⟨fun _ => none⟩⟩

/-- An environment whose hash is the length. -/
def lengthEnv : Env := ⟨fun bytes => sampleId (.ofNat bytes.length), fun _ _ => ⟨fun _ => none⟩⟩

def sampleDeltas : List ValueSegmentEntry :=
  [⟨sampleId 1, .delta, buildPatchBytes [1, 2] [1], some ⟨sampleId 2, 1, 0, []⟩⟩,
    ⟨sampleId 2, .delta, buildPatchBytes [1, 2, 3] [1, 2], some ⟨sampleId 3, 2, 0, []⟩⟩]

/-- Importing a delta without its base fails and leaves the delta in the store. -/
theorem import_orphan_not_atomic :
    ∃ t, Reachable zeroEnv emptyStore ∧
      emptyStore.importTransferEntries zeroEnv
        [⟨sampleId 1, .delta, [], some ⟨sampleId 2, 0, 0, []⟩⟩] =
          some (.error .missingDeltaBase, t) ∧
      ¬ Unchanged emptyStore t ∧ sampleId 1 ∈ t.index := by
  refine ⟨_, .new _, rfl, fun hsame => ?_, ?_⟩
  · have hlen := congrArg List.length hsame.entries
    cases hlen
  · decide

/-- A chain of two deltas, the outer one first, over a value of the store: the import accepts it,
so all of them resolve. -/
theorem import_atomic_iff_cell :
    ∃ s t : ValueStore, Reachable lengthEnv s ∧ sampleId 3 ∈ s.index ∧
      (∀ e t, s.importTransferEntries lengthEnv sampleDeltas = some (.error e, t) → Unchanged s t) ∧
      s.importTransferEntries lengthEnv sampleDeltas = some (.ok 2, t) ∧
      AllResolve lengthEnv s sampleDeltas := by
  have hs : Reachable lengthEnv (emptyStore.putWithId lengthEnv .cell (sampleId 3) [1, 2, 3]).1 :=
    .putWithId (.new _) .cell (sampleId 3) (by simp)
  obtain ⟨t, hrun⟩ : ∃ t, (emptyStore.putWithId lengthEnv .cell (sampleId 3)
      [1, 2, 3]).1.importTransferEntries lengthEnv sampleDeltas = some (.ok 2, t) := ⟨_, rfl⟩
  have hatomic : ∀ e u, (emptyStore.putWithId lengthEnv .cell (sampleId 3)
      [1, 2, 3]).1.importTransferEntries lengthEnv sampleDeltas = some (.error e, u) →
        Unchanged (emptyStore.putWithId lengthEnv .cell (sampleId 3) [1, 2, 3]).1 u := by
    intro e u herr
    rw [hrun] at herr
    cases herr
  refine ⟨_, t, hs, by decide, hatomic, hrun, ?_⟩
  refine ((import_atomic_iff hs sampleDeltas).2.mp hatomic).resolve_left fun hall => ?_
  have hnew : sampleId 1 ∉ (emptyStore.putWithId lengthEnv .cell (sampleId 3) [1, 2, 3]).1.index := by
    decide
  exact hnew (hall _ List.mem_cons_self)

end SkeinDB.Values
