import SkeinDB.Values.Patch
import Mathlib.Data.List.AList
import Mathlib.Data.List.Sort

/-!
# The value store

`skeindb-core/src/valuestore.rs`: the store's data model, insertion, the Bloom
filter, the learned index and its lookup path.
-/
namespace SkeinDB.Values
open SkeinDB.Codec SkeinDB.Format

abbrev ValueId := ByteArr 16

instance : LawfulBEq ValueId := inferInstance

structure SkipPatch where
  base : ValueId
  patch : Bytes
  distance : ℕ
  deriving DecidableEq

structure DeltaEntry where
  base : ValueId
  fullLen : ℕ
  depth : ℕ
  skip : List SkipPatch
  deriving DecidableEq

structure ValueEntry where
  kind : ValueKind
  bytes : Bytes
  delta : Option DeltaEntry
  deriving DecidableEq

structure ValueSegmentEntry where
  id : ValueId
  entry : ValueEntry
  deriving DecidableEq

/-- `min_savings_ratio` is used only in the floating-point test
`patch_len > (full_len as f64 * min_savings_ratio) as usize`, which is `exceedsSavings`. -/
structure DeltaPolicy where
  enabled : Bool
  minBytes : ℕ
  maxChain : ℕ
  exceedsSavings : ℕ → ℕ → Bool
  snapshotInterval : ℕ
  maxSkip : ℕ

structure ValueIdHistogram where
  buckets : UInt8 → ℕ := fun _ => 0
  total : ℕ := 0

/-- Counters saturate at the largest `u64`. -/
def satSucc (n : ℕ) : ℕ := min (n + 1) (2 ^ 64 - 1)

def ValueIdHistogram.record (h : ValueIdHistogram) (id : ValueId) : ValueIdHistogram :=
  let idx := id.val.getD 0 0
  ⟨Function.update h.buckets idx (satSucc (h.buckets idx)), satSucc h.total⟩

/-- `shifted` is the floating-point test `l1_distance(model_hist) >= max_shift_score`. -/
structure ModelRefreshPolicy where
  minSamples : ℕ
  maxInserts : ℕ
  shifted : ValueIdHistogram → ValueIdHistogram → Bool

structure ValueStoreConfig where
  enableLearnedIndex : Bool
  segmentSize : ℕ
  refreshPolicy : ModelRefreshPolicy
  deltaPolicy : DeltaPolicy

structure BloomFilter where
  bits : List UInt64
  mBits : ℕ
  count : ℕ
  deriving DecidableEq

def nextPowerOfTwo (n : ℕ) : ℕ :=
  (((List.range 64).map (2 ^ ·)).find? (fun p => n ≤ p)).getD 0

namespace BloomFilter

def new (expected : ℕ) : BloomFilter :=
  let mBits := nextPowerOfTwo (max expected 64 * 10)
  ⟨List.replicate (mBits / 64) 0, mBits, 0⟩

/-- Double hashing over the two halves of the id, in wrapping `u64` arithmetic. -/
def hashes (f : BloomFilter) (id : ValueId) : List ℕ :=
  let h1 := UInt64.ofNat (leNat (id.val.take 8))
  let h2 := UInt64.ofNat (leNat (id.val.drop 8))
  (List.range 7).map fun i =>
    ((h1 + UInt64.ofNat i * h2 + UInt64.ofNat i) % UInt64.ofNat f.mBits).toNat

def setBit (bits : List UInt64) (pos : ℕ) : List UInt64 :=
  bits.modify (pos / 64) (fun w => w ||| (1 <<< UInt64.ofNat (pos % 64)))

def insert (f : BloomFilter) (id : ValueId) : BloomFilter :=
  { f with bits := (f.hashes id).foldl setBit f.bits, count := f.count + 1 }

def maybeContains (f : BloomFilter) (id : ValueId) : Bool :=
  (f.hashes id).all fun pos =>
    f.bits.getD (pos / 64) 0 &&& (1 <<< UInt64.ofNat (pos % 64)) != 0

end BloomFilter

/-- A trained model. Lookups use only the range it predicts for an id. -/
structure LearnedIndex where
  predictRange : ValueId → Option (ℕ × ℕ)

/-- What the store takes as given: the content hash and the floating-point training of a
model from the sorted keys and the segment size. -/
structure Env where
  valueId : Bytes → ValueId
  build : List ValueId → ℕ → LearnedIndex

structure ValueStore where
  entries : List ValueEntry
  entryIds : List ValueId
  index : AList (fun _ : ValueId => ℕ)
  sortedKeys : List ValueId
  sortedEntries : List ℕ
  learned : Option LearnedIndex
  bloom : BloomFilter
  config : ValueStoreConfig
  lookupHist : ValueIdHistogram
  modelHist : Option ValueIdHistogram
  insertsSinceRefresh : ℕ

structure LookupTrace where
  probes : ℕ
  usedLearned : Bool
  usedFallback : Bool
  deriving DecidableEq

def idToU128 (id : ValueId) : ℕ := id.val.foldl (fun v b => v * 256 + b.toNat) 0

namespace ValueStore

def new (config : ValueStoreConfig) : ValueStore where
  entries := []
  entryIds := []
  index := ∅
  sortedKeys := []
  sortedEntries := []
  learned := none
  bloom := .new 1024
  config := config
  lookupHist := {}
  modelHist := none
  insertsSinceRefresh := 0

def setDeltaPolicy (s : ValueStore) (policy : DeltaPolicy) : ValueStore :=
  { s with config := { s.config with deltaPolicy := policy } }

def entryById (s : ValueStore) (id : ValueId) : Option ValueEntry :=
  (s.index.lookup id).bind (fun idx => s.entries[idx]?)

def shouldRefresh (s : ValueStore) : Bool :=
  let policy := s.config.refreshPolicy
  if !s.config.enableLearnedIndex then false
  else if s.entries.length < policy.minSamples then false
  else if s.learned.isNone then true
  else if policy.maxInserts ≤ s.insertsSinceRefresh then true
  else match s.modelHist with
    | some hist => policy.shifted s.lookupHist hist
    | none => false

def rebuildSortedKeys (s : ValueStore) : ValueStore :=
  let pairs := s.index.entries.insertionSort (fun a b => idToU128 a.1 ≤ idToU128 b.1)
  { s with sortedKeys := pairs.map (·.1), sortedEntries := pairs.map (·.2) }

def refreshLearnedIndex (env : Env) (s : ValueStore) : ValueStore :=
  if !s.config.enableLearnedIndex then
    { s with learned := none, sortedKeys := [], sortedEntries := [] }
  else
    let s := s.rebuildSortedKeys
    { s with
      learned :=
        if s.config.refreshPolicy.minSamples ≤ s.sortedKeys.length then
          some (env.build s.sortedKeys (max s.config.segmentSize 16))
        else none
      insertsSinceRefresh := 0
      modelHist := some s.lookupHist }

def maybeRefresh (env : Env) (s : ValueStore) : ValueStore :=
  if s.shouldRefresh then s.refreshLearnedIndex env else s

/-- The insertion shared by every operation that adds an entry. -/
def pushEntry (s : ValueStore) (id : ValueId) (entry : ValueEntry) : ValueStore :=
  { s with
    entries := s.entries ++ [entry]
    entryIds := s.entryIds ++ [id]
    index := s.index.insert id s.entries.length
    bloom := s.bloom.insert id }

/-- The insertion of `put_with_id` and `put_with_delta`, which also retrains the model. -/
def insertNew (env : Env) (s : ValueStore) (id : ValueId) (entry : ValueEntry) : ValueStore :=
  let s := { s.pushEntry id entry with
    insertsSinceRefresh := satSucc s.insertsSinceRefresh }
  if s.config.enableLearnedIndex then s.maybeRefresh env else s

def putWithId (env : Env) (s : ValueStore) (kind : ValueKind) (id : ValueId) (bytes : Bytes) :
    ValueStore × ValueId :=
  if id ∈ s.index then (s, id) else (s.insertNew env id ⟨kind, bytes, none⟩, id)

def put (env : Env) (s : ValueStore) (kind : ValueKind) (bytes : Bytes) : ValueStore × ValueId :=
  s.putWithId env kind (env.valueId bytes) bytes

/-- Probe the predicted positions in order: the position that holds the id, if any, and the
probes made. -/
def probeLoop (keys : List ValueId) (id : ValueId) : List ℕ → ℕ → Option ℕ × ℕ
  | [], probes => (none, probes)
  | idx :: rest, probes =>
    if keys[idx]? = some id then (some idx, probes + 1) else probeLoop keys id rest (probes + 1)

/-- The learned-index part of a lookup: whether a range was predicted, the position found in
it and the probes made. -/
def probeLearned (s : ValueStore) (id : ValueId) : Bool × Option ℕ × ℕ :=
  if s.config.enableLearnedIndex then
    match s.learned.bind (fun model => model.predictRange id) with
    | some (start, stop) =>
      (true, probeLoop s.sortedKeys id (List.range' start (stop + 1 - start)) 0)
    | none => (false, none, 0)
  else (false, none, 0)

def getWithTrace (s : ValueStore) (id : ValueId) :
    (Option ValueEntry × LookupTrace) × ValueStore :=
  let s := { s with lookupHist := s.lookupHist.record id }
  match s.probeLearned id with
  | (usedLearned, some idx, probes) =>
    (((s.sortedEntries[idx]?).bind (fun e => s.entries[e]?), ⟨probes, usedLearned, false⟩), s)
  | (usedLearned, none, probes) =>
    let entry := s.entryById id
    ((entry, ⟨if entry.isSome then probes + 1 else probes, usedLearned, entry.isSome⟩), s)

def get (s : ValueStore) (id : ValueId) : Option ValueEntry × ValueStore :=
  ((s.getWithTrace id).1.1, (s.getWithTrace id).2)

/-- The index maps exactly the stored ids to their positions. -/
structure WF (s : ValueStore) : Prop where
  lengths : s.entryIds.length = s.entries.length
  nodup : s.entryIds.Nodup
  lookup : ∀ id i, s.index.lookup id = some i ↔ s.entryIds[i]? = some id

theorem new_wf (config : ValueStoreConfig) : (new config).WF where
  lengths := rfl
  nodup := List.nodup_nil
  lookup id i := by simp [new]

theorem mem_index_iff {s : ValueStore} (h : s.WF) {id : ValueId} :
    id ∈ s.index ↔ id ∈ s.entryIds := by
  rw [← AList.lookup_isSome, Option.isSome_iff_exists, List.mem_iff_getElem?]
  simp only [h.lookup]

theorem entryById_isSome {s : ValueStore} (h : s.WF) {id : ValueId} :
    (s.entryById id).isSome ↔ id ∈ s.index := by
  rw [entryById, ← AList.lookup_isSome]
  cases hlook : s.index.lookup id with
  | none => simp
  | some i =>
    have hi : i < s.entries.length := by
      have hid := (h.lookup id i).mp hlook
      rw [← h.lengths]
      exact (List.getElem?_eq_some_iff.mp hid).1
    simp [hi]

theorem index_length_le {s : ValueStore} (h : s.WF) :
    s.index.keys.length ≤ s.entries.length := by
  rw [← h.lengths]
  refine List.Subperm.length_le (List.subperm_of_subset s.index.nodupKeys fun id hid => ?_)
  exact (mem_index_iff h).mp (AList.mem_keys.mpr hid)

theorem pushEntry_wf {s : ValueStore} (h : s.WF) {id : ValueId} (hid : id ∉ s.index)
    (entry : ValueEntry) : (s.pushEntry id entry).WF := by
  have hnot : id ∉ s.entryIds := fun hmem => hid ((mem_index_iff h).mpr hmem)
  refine ⟨by simp [pushEntry, h.lengths], ?_, fun k i => ?_⟩
  · simp only [pushEntry, List.nodup_append, h.nodup, List.nodup_singleton, true_and]
    intro a ha b hb
    rw [List.mem_singleton] at hb
    rintro rfl
    exact hnot (hb ▸ ha)
  · simp only [pushEntry]
    by_cases hk : k = id
    · subst hk
      rw [AList.lookup_insert, List.getElem?_append, h.lengths]
      constructor
      · intro hi
        cases hi
        simp
      · intro hi
        split at hi
        · exact absurd (List.mem_of_getElem? hi) hnot
        · rename_i hge
          have hzero : i - s.entries.length = 0 := by
            by_contra hne
            simp [hne] at hi
          rw [Option.some.injEq]
          omega
    · rw [AList.lookup_insert_ne hk, h.lookup, List.getElem?_append, h.lengths]
      split
      · rfl
      · rename_i hge
        have hnone : s.entryIds[i]? = none := by
          rw [List.getElem?_eq_none_iff, h.lengths]
          omega
        simp only [hnone, List.getElem?_singleton]
        split
        · simp [Ne.symm hk]
        · simp

theorem entryById_pushEntry {s : ValueStore} (h : s.WF) {id : ValueId} (entry : ValueEntry)
    (k : ValueId) :
    (s.pushEntry id entry).entryById k = if k = id then some entry else s.entryById k := by
  by_cases hk : k = id
  · subst hk
    simp [entryById, pushEntry]
  · rw [if_neg hk, entryById, entryById, pushEntry]
    simp only [AList.lookup_insert_ne hk]
    cases hlook : s.index.lookup k with
    | none => rfl
    | some i =>
      have hi : i < s.entries.length := by
        rw [← h.lengths]
        exact (List.getElem?_eq_some_iff.mp ((h.lookup k i).mp hlook)).1
      simp [List.getElem?_append_left hi]

/-- Overwriting the entry of an id changes that id only. -/
theorem entryById_set {s : ValueStore} (h : s.WF) {id : ValueId} {idx : ℕ}
    (hidx : s.index.lookup id = some idx) (entry : ValueEntry) (k : ValueId) :
    ({ s with entries := s.entries.set idx entry } : ValueStore).entryById k =
      if k = id then some entry else s.entryById k := by
  have hid := (h.lookup id idx).mp hidx
  have hlt : idx < s.entries.length := by
    rw [← h.lengths]
    exact (List.getElem?_eq_some_iff.mp hid).1
  by_cases hk : k = id
  · subst hk
    simp [entryById, hidx, hlt]
  · rw [if_neg hk, entryById, entryById]
    cases hlook : s.index.lookup k with
    | none => rfl
    | some i =>
      have hne : idx ≠ i := by
        rintro rfl
        have hk' := (h.lookup k idx).mp hlook
        rw [hid] at hk'
        exact hk (Option.some.inj hk').symm
      simp [List.getElem?_set_ne hne]

theorem set_wf {s : ValueStore} (h : s.WF) (idx : ℕ) (entry : ValueEntry) :
    ({ s with entries := s.entries.set idx entry } : ValueStore).WF :=
  ⟨by simpa using h.lengths, h.nodup, h.lookup⟩

/-- Two stores that differ at most in the learned index and the lookup statistics. -/
structure SameContents (s t : ValueStore) : Prop where
  entries : t.entries = s.entries
  entryIds : t.entryIds = s.entryIds
  index : t.index = s.index
  bloom : t.bloom = s.bloom
  deltaPolicy : t.config.deltaPolicy = s.config.deltaPolicy

theorem SameContents.trans {s t u : ValueStore} (h : SameContents s t) (h' : SameContents t u) :
    SameContents s u :=
  ⟨h'.entries.trans h.entries, h'.entryIds.trans h.entryIds, h'.index.trans h.index,
    h'.bloom.trans h.bloom, h'.deltaPolicy.trans h.deltaPolicy⟩

theorem SameContents.wf {s t : ValueStore} (h : SameContents s t) (hs : s.WF) : t.WF :=
  ⟨by rw [h.entryIds, h.entries, hs.lengths], by rw [h.entryIds]; exact hs.nodup,
    by rw [h.entryIds, h.index]; exact hs.lookup⟩

theorem SameContents.entryById {s t : ValueStore} (h : SameContents s t) (id : ValueId) :
    t.entryById id = s.entryById id := by
  rw [ValueStore.entryById, ValueStore.entryById, h.entries, h.index]

theorem refreshLearnedIndex_same (env : Env) (s : ValueStore) :
    SameContents s (s.refreshLearnedIndex env) := by
  unfold refreshLearnedIndex
  split
  · exact ⟨rfl, rfl, rfl, rfl, rfl⟩
  · exact ⟨rfl, rfl, rfl, rfl, rfl⟩

theorem maybeRefresh_same (env : Env) (s : ValueStore) : SameContents s (s.maybeRefresh env) := by
  unfold maybeRefresh
  split
  · exact refreshLearnedIndex_same env s
  · exact ⟨rfl, rfl, rfl, rfl, rfl⟩

theorem insertNew_same (env : Env) (s : ValueStore) (id : ValueId) (entry : ValueEntry) :
    SameContents (s.pushEntry id entry) (s.insertNew env id entry) := by
  let t := { s.pushEntry id entry with insertsSinceRefresh := satSucc s.insertsSinceRefresh }
  have ht : SameContents (s.pushEntry id entry) t := ⟨rfl, rfl, rfl, rfl, rfl⟩
  change SameContents _ (if t.config.enableLearnedIndex then t.maybeRefresh env else t)
  split
  · exact ht.trans (maybeRefresh_same env t)
  · exact ht

theorem insertNew_wf {s : ValueStore} (h : s.WF) (env : Env) {id : ValueId} (hid : id ∉ s.index)
    (entry : ValueEntry) : (s.insertNew env id entry).WF :=
  (insertNew_same env s id entry).wf (pushEntry_wf h hid entry)

theorem entryById_insertNew {s : ValueStore} (h : s.WF) (env : Env) {id : ValueId}
    (entry : ValueEntry) (k : ValueId) :
    (s.insertNew env id entry).entryById k = if k = id then some entry else s.entryById k := by
  rw [(insertNew_same env s id entry).entryById, entryById_pushEntry h]

theorem mem_index_insertNew {s : ValueStore} (env : Env) {id : ValueId} (entry : ValueEntry)
    {k : ValueId} : k ∈ (s.insertNew env id entry).index ↔ k = id ∨ k ∈ s.index := by
  rw [(insertNew_same env s id entry).index, pushEntry, AList.mem_insert]

end ValueStore

end SkeinDB.Values
