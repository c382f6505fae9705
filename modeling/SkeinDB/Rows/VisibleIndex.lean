import SkeinDB.Rows.Mvcc

/-!
# The visible-version index

`skeindb-core/src/mvcc.rs`: a bounded cache of lookups, keyed by row and snapshot bucket. An
entry is reused when the head of the row is the same and the cached version is visible at the
exact snapshot; whether a version in front of it has become visible is not checked.
-/
namespace SkeinDB.Rows
open SkeinDB.Codec SkeinDB.Format

inductive SnapshotEpochBucket
  | latest
  | asOf (bucket : UInt64)
  deriving DecidableEq, Repr

def SnapshotEpochBucket.fromSnapshot (snapshot : Snapshot) (bucketWidth : UInt64) :
    SnapshotEpochBucket :=
  match snapshot.asOfTs with
  | some ts => .asOf (ts / max bucketWidth 1)
  | none => .latest

structure VisibleVersionCacheKey where
  rowId : UInt64
  bucket : SnapshotEpochBucket
  deriving DecidableEq, Repr

structure VisibleVersionCacheEntry where
  head : Option FilePtr
  lookup : MvccLookup
  deriving DecidableEq, Repr

structure VisibleVersionIndexStats where
  hits : ℕ
  misses : ℕ
  stale : ℕ
  inserts : ℕ
  evictions : ℕ
  deriving DecidableEq, Repr

/-- The entries have distinct keys; `order` lists the keys, the oldest first. -/
structure VisibleVersionIndex where
  bucketWidth : UInt64
  capacity : ℕ
  entries : List (VisibleVersionCacheKey × VisibleVersionCacheEntry)
  order : List VisibleVersionCacheKey
  stats : VisibleVersionIndexStats
  deriving DecidableEq, Repr

def cachedLookupMatchesSnapshot (lookup : MvccLookup) (snapshot : Snapshot) : Bool :=
  lookup.version?.any fun version => snapshot.isRowVisible version.row

namespace VisibleVersionIndex

def new (bucketWidth : UInt64) (capacity : ℕ) : VisibleVersionIndex :=
  ⟨max bucketWidth 1, capacity, [], [], ⟨0, 0, 0, 0, 0⟩⟩

def getEntry (index : VisibleVersionIndex) (key : VisibleVersionCacheKey) :
    Option VisibleVersionCacheEntry :=
  (index.entries.find? fun e => e.1 = key).map (·.2)

def removeKey (index : VisibleVersionIndex) (key : VisibleVersionCacheKey) :
    VisibleVersionIndex :=
  { index with
    entries := index.entries.filter (·.1 ≠ key)
    order := index.order.filter (· ≠ key) }

/-- The loop of `insert` that makes room: the oldest keys leave until the capacity is free. -/
def evict (capacity : ℕ) : List VisibleVersionCacheKey →
    List (VisibleVersionCacheKey × VisibleVersionCacheEntry) → VisibleVersionIndexStats →
    List VisibleVersionCacheKey × List (VisibleVersionCacheKey × VisibleVersionCacheEntry) ×
      VisibleVersionIndexStats
  | [], entries, stats => ([], entries, stats)
  | oldest :: order, entries, stats =>
    if capacity ≤ entries.length then
      let stats := if entries.any (·.1 = oldest) then
        { stats with evictions := stats.evictions + 1 } else stats
      evict capacity order (entries.filter (·.1 ≠ oldest)) stats
    else (oldest :: order, entries, stats)

def insert (index : VisibleVersionIndex) (key : VisibleVersionCacheKey)
    (entry : VisibleVersionCacheEntry) : VisibleVersionIndex :=
  let index := index.removeKey key
  let (order, entries, stats) := evict index.capacity index.order index.entries index.stats
  { index with
    order := order ++ [key]
    entries := entries ++ [(key, entry)]
    stats := { stats with inserts := stats.inserts + 1 } }

def key (index : VisibleVersionIndex) (rowId : UInt64) (snapshot : Snapshot) :
    VisibleVersionCacheKey :=
  ⟨rowId, .fromSnapshot snapshot index.bucketWidth⟩

/-- Walk the chain and remember what was found. -/
def resolveAndInsert (index : VisibleVersionIndex) (rowDir : RowDir)
    (load : FilePtr → Except MvccError RowVersion) (rowId : UInt64) (snapshot : Snapshot) :
    Except MvccError MvccLookup × VisibleVersionIndex :=
  match Rows.resolveRowId rowDir load rowId snapshot with
  | .error e => (.error e, index)
  | .ok lookup =>
    if lookup.isMissing then (.ok lookup, index)
    else (.ok lookup, index.insert (index.key rowId snapshot) ⟨rowDir.get rowId, lookup⟩)

def resolveRowId (index : VisibleVersionIndex) (rowDir : RowDir)
    (load : FilePtr → Except MvccError RowVersion) (rowId : UInt64) (snapshot : Snapshot) :
    Except MvccError MvccLookup × VisibleVersionIndex :=
  let missed := { index with stats := { index.stats with misses := index.stats.misses + 1 } }
  if index.capacity = 0 then (Rows.resolveRowId rowDir load rowId snapshot, missed)
  else
    match index.getEntry (index.key rowId snapshot) with
    | none => missed.resolveAndInsert rowDir load rowId snapshot
    | some entry =>
      if entry.head = rowDir.get rowId ∧ cachedLookupMatchesSnapshot entry.lookup snapshot then
        (.ok entry.lookup,
          { index with stats := { index.stats with hits := index.stats.hits + 1 } })
      else
        let stale := { missed with stats := { missed.stats with stale := missed.stats.stale + 1 } }
        (stale.removeKey (index.key rowId snapshot)).resolveAndInsert rowDir load rowId snapshot

end VisibleVersionIndex

/-- A directory, its segments and an index over them. -/
structure MvccState where
  rowDir : RowDir
  segments : RowSegmentSet
  index : VisibleVersionIndex

namespace MvccState

/-- The lookup through the index. -/
def lookup (s : MvccState) (rowId : UInt64) (snapshot : Snapshot) :
    Except MvccError MvccLookup × VisibleVersionIndex :=
  s.index.resolveRowId s.rowDir s.segments.loadRowVersion rowId snapshot

/-- The lookup without it. -/
def uncached (s : MvccState) (rowId : UInt64) (snapshot : Snapshot) :
    Except MvccError MvccLookup :=
  resolveRowId s.rowDir s.segments.loadRowVersion rowId snapshot

end MvccState

/-- The states of directory updates, growing segments and lookups in any order. -/
inductive MvccReachable : MvccState → Prop
  | new (rowDir : RowDir) (bucketWidth : UInt64) (capacity : ℕ) :
      MvccReachable ⟨rowDir, .new, .new bucketWidth capacity⟩
  | updateDir {s : MvccState} (hs : MvccReachable s) (rowDir : RowDir) :
      MvccReachable { s with rowDir := rowDir }
  | grow {s : MvccState} {file : Bytes} {segments : RowSegmentSet} (hs : MvccReachable s)
      (happend : AppendOnly s.segments file) (h : s.segments.insertPath file = .ok segments) :
      MvccReachable { s with segments := segments }
  | lookup {s : MvccState} (hs : MvccReachable s) (rowId : UInt64) (snapshot : Snapshot) :
      MvccReachable { s with index := (s.lookup rowId snapshot).2 }

/-- No version in front of a reusable cached one is visible at the snapshot. -/
def NothingNewer (s : MvccState) (rowId : UInt64) (snapshot : Snapshot) : Prop :=
  ∀ entry version head, s.index.getEntry (s.index.key rowId snapshot) = some entry →
    entry.head = s.rowDir.get rowId → entry.lookup.version? = some version →
    snapshot.isRowVisible version.row → s.rowDir.get rowId = some head →
    ∀ n, n + 1 < version.hops → ∀ row, versionAt s.segments.loadRowVersion n head = .ok row →
      ¬ snapshot.isRowVisible row

section Cached
variable {s : MvccState} {index : VisibleVersionIndex} {rowDir : RowDir}
  {load load' : FilePtr → Except MvccError RowVersion} {rowId : UInt64} {snapshot : Snapshot}

/-- The entry is the lookup of a row from a head at some snapshot. -/
def Walked (load : FilePtr → Except MvccError RowVersion)
    (e : VisibleVersionCacheKey × VisibleVersionCacheEntry) : Prop :=
  ∃ head snapshot, e.2.head = some head ∧
    resolveChain load head (some e.1.rowId) none snapshot = .ok e.2.lookup

theorem Walked.mono {e : VisibleVersionCacheKey × VisibleVersionCacheEntry}
    (hload : ∀ p row, load p = .ok row → load' p = .ok row) (h : Walked load e) :
    Walked load' e := by
  obtain ⟨head, snapshot, hhead, hchain⟩ := h
  refine ⟨head, snapshot, hhead, ?_⟩
  unfold resolveChain at hchain ⊢
  split
  · rename_i hnone
    rwa [if_pos hnone] at hchain
  · rename_i hnone
    rw [if_neg hnone] at hchain
    exact resolveLoop_mono hload hchain

theorem mem_evict {capacity : ℕ} {order : List VisibleVersionCacheKey}
    {entries : List (VisibleVersionCacheKey × VisibleVersionCacheEntry)}
    {stats : VisibleVersionIndexStats} {e : VisibleVersionCacheKey × VisibleVersionCacheEntry}
    (he : e ∈ (VisibleVersionIndex.evict capacity order entries stats).2.1) : e ∈ entries := by
  induction order generalizing entries stats with
  | nil => exact he
  | cons oldest order ih =>
    unfold VisibleVersionIndex.evict at he
    split at he
    · exact (List.mem_filter.mp (ih he)).1
    · exact he

theorem mem_insert {key : VisibleVersionCacheKey} {entry : VisibleVersionCacheEntry}
    {e : VisibleVersionCacheKey × VisibleVersionCacheEntry}
    (he : e ∈ (index.insert key entry).entries) : e ∈ index.entries ∨ e = (key, entry) := by
  rcases List.mem_append.mp he with he | he
  · exact Or.inl (List.mem_filter.mp (mem_evict he)).1
  · exact Or.inr (List.mem_singleton.mp he)

theorem resolveAndInsert_fst :
    (index.resolveAndInsert rowDir load rowId snapshot).1 =
      resolveRowId rowDir load rowId snapshot := by
  unfold VisibleVersionIndex.resolveAndInsert
  cases resolveRowId rowDir load rowId snapshot with
  | error e => rfl
  | ok lookup =>
    dsimp only
    split <;> rfl

theorem resolveAndInsert_capacity :
    (index.resolveAndInsert rowDir load rowId snapshot).2.capacity = index.capacity := by
  unfold VisibleVersionIndex.resolveAndInsert
  cases resolveRowId rowDir load rowId snapshot with
  | error e => rfl
  | ok lookup =>
    dsimp only
    split <;> rfl

/-- A lookup that is not missing started at a head. -/
theorem walked_of_resolveRowId {lookup : MvccLookup} {bucket : SnapshotEpochBucket}
    (h : resolveRowId rowDir load rowId snapshot = .ok lookup) (hfound : ¬ lookup.isMissing) :
    Walked load (⟨rowId, bucket⟩, ⟨rowDir.get rowId, lookup⟩) := by
  unfold resolveRowId at h
  cases hhead : rowDir.get rowId with
  | none =>
    rw [hhead] at h
    rw [← Except.ok.inj h] at hfound
    exact absurd rfl hfound
  | some head =>
    rw [hhead] at h
    exact ⟨head, snapshot, rfl, h⟩

theorem mem_resolveAndInsert {e : VisibleVersionCacheKey × VisibleVersionCacheEntry}
    (he : e ∈ (index.resolveAndInsert rowDir load rowId snapshot).2.entries) :
    e ∈ index.entries ∨ Walked load e := by
  unfold VisibleVersionIndex.resolveAndInsert at he
  cases hlookup : resolveRowId rowDir load rowId snapshot with
  | error err =>
    rw [hlookup] at he
    exact Or.inl he
  | ok lookup =>
    simp only [hlookup] at he
    split at he
    · exact Or.inl he
    · rename_i hfound
      rcases mem_insert he with he | rfl
      · exact Or.inl he
      · exact Or.inr (walked_of_resolveRowId hlookup hfound)

/-- What a lookup leaves in the index. -/
theorem mem_resolveRowId {e : VisibleVersionCacheKey × VisibleVersionCacheEntry}
    (he : e ∈ (index.resolveRowId rowDir load rowId snapshot).2.entries) :
    e ∈ index.entries ∨ index.capacity ≠ 0 ∧ Walked load e := by
  unfold VisibleVersionIndex.resolveRowId at he
  dsimp only at he
  split at he
  · exact Or.inl he
  · rename_i hcapacity
    split at he
    · exact (mem_resolveAndInsert he).imp id fun h => ⟨hcapacity, h⟩
    · split at he
      · exact Or.inl he
      · rcases mem_resolveAndInsert he with he | he
        · exact Or.inl (List.mem_filter.mp he).1
        · exact Or.inr ⟨hcapacity, he⟩

theorem resolveRowId_capacity :
    (index.resolveRowId rowDir load rowId snapshot).2.capacity = index.capacity := by
  unfold VisibleVersionIndex.resolveRowId
  dsimp only
  split
  · rfl
  · split
    · exact resolveAndInsert_capacity
    · split
      · rfl
      · exact resolveAndInsert_capacity

/-- Every cached lookup would come back from the segments as they are now. -/
structure CacheInv (s : MvccState) : Prop where
  whole : s.segments.Whole
  room : s.index.capacity = 0 → s.index.entries = []
  walked : ∀ e ∈ s.index.entries, Walked s.segments.loadRowVersion e

theorem MvccReachable.inv (h : MvccReachable s) : CacheInv s := by
  induction h with
  | new rowDir bucketWidth capacity =>
    refine ⟨?_, fun _ => rfl, by simp [VisibleVersionIndex.new]⟩
    intro fileId reader hreader
    simp [RowSegmentSet.new] at hreader
  | updateDir _ rowDir ih => exact ⟨ih.whole, ih.room, ih.walked⟩
  | grow _ happend h ih =>
    refine ⟨Whole.insertPath ih.whole h, ih.room, ?_⟩
    intro e he
    exact (ih.walked e he).mono fun p row => loadRowVersion_grow ih.whole happend h
  | @lookup s _ rowId snapshot ih =>
    refine ⟨ih.whole, ?_, ?_⟩
    · intro hcapacity
      have hzero : s.index.capacity = 0 := by
        rw [← hcapacity]
        exact resolveRowId_capacity.symm
      apply List.eq_nil_iff_forall_not_mem.mpr
      intro e he
      rcases mem_resolveRowId he with he | ⟨hpos, -⟩
      · simp [ih.room hzero] at he
      · exact hpos hzero
    · intro e he
      rcases mem_resolveRowId he with he | ⟨-, he⟩
      · exact ih.walked e he
      · exact he

theorem mem_of_getEntry {key : VisibleVersionCacheKey} {entry : VisibleVersionCacheEntry}
    (h : index.getEntry key = some entry) : (key, entry) ∈ index.entries := by
  obtain ⟨e, hfind, rfl⟩ := Option.map_eq_some_iff.mp h
  have hkey : e.1 = key := by simpa using List.find?_some hfind
  rw [← hkey]
  exact List.mem_of_find?_eq_some hfind

/-- A cached lookup against the walk at another snapshot that sees its version. -/
theorem walked_again {key : VisibleVersionCacheKey} {entry : VisibleVersionCacheEntry}
    {head : FilePtr} {version : VisibleVersion} (hwalked : Walked load (key, entry))
    (hhead : entry.head = some head) (hversion : entry.lookup.version? = some version)
    (hsees : snapshot.isRowVisible version.row) :
    .ok entry.lookup = resolveChain load head (some key.rowId) none snapshot ↔
      ∀ n, n + 1 < version.hops → ∀ row, versionAt load n head = .ok row →
        ¬ snapshot.isRowVisible row := by
  obtain ⟨head', cachedAt, hhead', hchain⟩ := hwalked
  obtain rfl : head' = head := Option.some.inj (hhead'.symm.trans hhead)
  unfold resolveChain at hchain ⊢
  split at hchain
  · rw [← Except.ok.inj hchain] at hversion
    cases hversion
  · rename_i hnone
    have hagain := (resolveLoop_again hchain hversion hsees).2
    rw [if_neg hnone, eq_comm, hagain]
    simp only [Nat.zero_add]

end Cached

/-- In every state the index answers as the chain does, unless it reuses a version that a newer
visible one has overtaken. -/
theorem visible_index_exact {s : MvccState} (h : MvccReachable s) (rowId : UInt64)
    (snapshot : Snapshot) :
    (s.lookup rowId snapshot).1 = s.uncached rowId snapshot ↔ NothingNewer s rowId snapshot := by
  have hinv := h.inv
  unfold MvccState.lookup MvccState.uncached VisibleVersionIndex.resolveRowId
  dsimp only
  by_cases hcapacity : s.index.capacity = 0
  · rw [if_pos hcapacity]
    refine iff_of_true rfl ?_
    intro entry version head hentry
    have hmem := mem_of_getEntry hentry
    simp [hinv.room hcapacity] at hmem
  · rw [if_neg hcapacity]
    cases hget : s.index.getEntry (s.index.key rowId snapshot) with
    | none =>
      refine iff_of_true resolveAndInsert_fst ?_
      intro entry version head hentry
      rw [hget] at hentry
      cases hentry
    | some entry =>
      dsimp only
      by_cases hreuse : entry.head = s.rowDir.get rowId ∧
          cachedLookupMatchesSnapshot entry.lookup snapshot
      · rw [if_pos hreuse]
        obtain ⟨hhead, hmatches⟩ := hreuse
        obtain ⟨version, hversion, hsees⟩ := (Option.any_eq_true _ _).mp hmatches
        have hwalked := hinv.walked _ (mem_of_getEntry hget)
        obtain ⟨head, hsome⟩ : ∃ head, entry.head = some head := by
          obtain ⟨head, -, hsome, -⟩ := hwalked
          exact ⟨head, hsome⟩
        have hagain := walked_again hwalked hsome hversion hsees
        have hdir : s.rowDir.get rowId = some head := hhead.symm.trans hsome
        rw [resolveRowId, hdir]
        refine hagain.trans ?_
        constructor
        · intro hfront entry' version' head' hentry _ hversion' _ hhead'
          rw [hget] at hentry
          obtain rfl := Option.some.inj hentry
          obtain rfl := Option.some.inj (hversion.symm.trans hversion')
          obtain rfl := Option.some.inj (hdir.symm.trans hhead')
          exact hfront
        · intro hnothing
          exact hnothing entry version head hget hhead hversion hsees hdir
      · rw [if_neg hreuse]
        refine iff_of_true resolveAndInsert_fst ?_
        intro entry' version head hentry hhead hversion hsees
        rw [hget] at hentry
        obtain rfl := Option.some.inj hentry
        refine absurd ⟨hhead, ?_⟩ hreuse
        simpa [cachedLookupMatchesSnapshot, hversion] using hsees

/-- A version that began at a time and has no end. -/
def openVersion (beginTs : UInt64) (prev : FilePtr) : RowVersion :=
  ⟨0, 3, 42, beginTs, 0, prev, []⟩

/-- The segment of two open versions of a row, the first below the second. -/
def twoVersions : Bytes :=
  (FileHeader.new .rowSeg 1 0).encode ++ (recordFrame (openVersion 100 .none).encode ++
    recordFrame (openVersion 200 ⟨1, 64⟩).encode)

/-- The second version. -/
def secondVersion : FilePtr :=
  ⟨1, UInt64.ofNat (64 + (recordFrame (openVersion 100 .none).encode).length)⟩

/-- The row at its second version, with the lookup at 150 in the index. -/
def cachedState (segments : RowSegmentSet) : MvccState :=
  let s : MvccState := ⟨RowDir.new.put 42 secondVersion, segments, .new 1000 8⟩
  { s with index := (s.lookup 42 (.asOf 150)).2 }

theorem cachedState_reachable {segments : RowSegmentSet}
    (h : RowSegmentSet.new.insertPath twoVersions = .ok segments) :
    MvccReachable (cachedState segments) := by
  refine MvccReachable.lookup (MvccReachable.grow
    (MvccReachable.new (RowDir.new.put 42 secondVersion) 1000 8) ?_ h) 42 (.asOf 150)
  intro reader old _ hold
  simp [RowSegmentSet.new] at hold

/-- At 160 the cached version is reused and is the visible one. -/
theorem visible_index_exact_sample : ∃ s, MvccReachable s ∧
    (s.lookup 42 (.asOf 160)).2.stats.hits = 1 ∧ NothingNewer s 42 (.asOf 160) ∧
      (s.lookup 42 (.asOf 160)).1 = s.uncached 42 (.asOf 160) := by
  have hrun : (RowSegmentSet.new.insertPath twoVersions).map (fun segments =>
      (((cachedState segments).lookup 42 (.asOf 160)).2.stats.hits,
        decide (((cachedState segments).lookup 42 (.asOf 160)).1 =
          (cachedState segments).uncached 42 (.asOf 160)))) = .ok (1, true) := by
    decide +kernel
  cases hopen : RowSegmentSet.new.insertPath twoVersions with
  | error e => simp [hopen, Except.map] at hrun
  | ok segments =>
    rw [hopen] at hrun
    obtain ⟨hhits, hsame⟩ := Prod.mk.inj (Except.ok.inj hrun)
    have hreach := cachedState_reachable hopen
    have hequal := of_decide_eq_true hsame
    exact ⟨_, hreach, hhits, (visible_index_exact hreach 42 (.asOf 160)).mp hequal, hequal⟩

/-- At 250, in the same bucket, the cached version hides the second one. -/
theorem visible_index_overtaken : ∃ s, MvccReachable s ∧
    (s.lookup 42 (.asOf 250)).1 ≠ s.uncached 42 (.asOf 250) := by
  have hrun : (RowSegmentSet.new.insertPath twoVersions).map (fun segments =>
      decide (((cachedState segments).lookup 42 (.asOf 250)).1 =
        (cachedState segments).uncached 42 (.asOf 250))) = .ok false := by
    decide +kernel
  cases hopen : RowSegmentSet.new.insertPath twoVersions with
  | error e => simp [hopen, Except.map] at hrun
  | ok segments =>
    rw [hopen] at hrun
    exact ⟨_, cachedState_reachable hopen, of_decide_eq_false (Except.ok.inj hrun)⟩

end SkeinDB.Rows
