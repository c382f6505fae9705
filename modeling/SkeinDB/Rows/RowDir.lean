import SkeinDB.Codec.BigEndian
import SkeinDB.Rows.Version
import SkeinDB.Runs.File

/-!
# The row directory

`skeindb-core/src/rowdir.rs`: the directory of head pointers, its sorted runs and the replay
of a run. A flush keeps tombstones; a replay applies them and drops them, so a directory
loaded from runs holds live rows only.
-/
namespace SkeinDB.Rows
open SkeinDB.Codec SkeinDB.Format SkeinDB.Search SkeinDB.Runs

/-- `InvalidRunEntry` carries the source's own text. -/
inductive RowDirError
  | invalidRunEntry (what : String)
  | unsupportedEntryTag (tag : UInt8)
  | run (err : RunError)
  deriving DecidableEq, Repr

inductive RowDirEntry
  | live (head : FilePtr)
  | tombstone
  deriving DecidableEq, Repr

def RowDirEntry.asLive : RowDirEntry → Option FilePtr
  | .live head => some head
  | .tombstone => none

def entryTagLive : UInt8 := 0

def entryTagTombstone : UInt8 := 1

def encodeEntry : RowDirEntry → Bytes
  | .live head => entryTagLive :: head.encode
  | .tombstone => [entryTagTombstone]

def decodeEntry : Bytes → Except RowDirError RowDirEntry
  | [] => .error (.invalidRunEntry "empty value")
  | tag :: rest =>
    if tag = entryTagLive then
      if rest.length ≠ filePtrLen then .error (.invalidRunEntry "live entry length")
      else match FilePtr.decode rest with
        | .error _ => .error (.invalidRunEntry "malformed FilePtr")
        | .ok head => .ok (.live head)
    else if tag = entryTagTombstone then
      if rest ≠ [] then .error (.invalidRunEntry "tombstone trailing bytes") else .ok .tombstone
    else .error (.unsupportedEntryTag tag)

def encodeRowIdKey (rowId : UInt64) : Bytes := beBytes 8 rowId.toNat

def decodeRowIdKey (key : Bytes) : Except RowDirError UInt64 :=
  if key.length ≠ 8 then .error (.invalidRunEntry "row_id key length")
  else .ok (UInt64.ofNat (beNat key))

structure RowDir where
  map : Std.TreeMap UInt64 RowDirEntry

namespace RowDir

def new : RowDir := ⟨∅⟩

def put (dir : RowDir) (rowId : UInt64) (head : FilePtr) : RowDir :=
  ⟨dir.map.insert rowId (.live head)⟩

def remove (dir : RowDir) (rowId : UInt64) : RowDir := ⟨dir.map.insert rowId .tombstone⟩

def getEntry (dir : RowDir) (rowId : UInt64) : Option RowDirEntry := dir.map[rowId]?

def get (dir : RowDir) (rowId : UInt64) : Option FilePtr :=
  (dir.getEntry rowId).bind RowDirEntry.asLive

/-- `RunWriterOptions::default`. -/
def runBlockSize : ℕ := 4 * 1024

/-- The entries of the run, in the order of the row ids. -/
def runEntries (dir : RowDir) : List RunEntry :=
  dir.map.toList.map fun p => ⟨encodeRowIdKey p.1, encodeEntry p.2⟩

def flushToRun (dir : RowDir) (createdUnixS : UInt64) : Except RowDirError Bytes :=
  ((writeRun runBlockSize createdUnixS dir.runEntries).mapError .run).map (·.2)

/-- The loop of `load_from_run`. -/
def replay (dir : RowDir) : List RunEntry → Except RowDirError RowDir
  | [] => .ok dir
  | entry :: rest => do
    let rowId ← decodeRowIdKey entry.key
    match ← decodeEntry entry.value with
    | .live head => replay ⟨dir.map.insert rowId (.live head)⟩ rest
    | .tombstone => replay ⟨dir.map.erase rowId⟩ rest

def loadFromRun (dir : RowDir) (file : Bytes) : Except RowDirError RowDir := do
  let reader ← (RunReader.open file).mapError .run
  let entries ← reader.readAll.mapError .run
  dir.replay entries

end RowDir

/-- The updates of a directory. -/
inductive DirOp
  | put (rowId : UInt64) (head : FilePtr)
  | remove (rowId : UInt64)
  deriving DecidableEq, Repr

namespace RowDir

def apply (dir : RowDir) : DirOp → RowDir
  | .put rowId head => dir.put rowId head
  | .remove rowId => dir.remove rowId

def applyAll (dir : RowDir) (ops : List DirOp) : RowDir := ops.foldl apply dir

/-- Load runs one after the other, the oldest first. -/
def loadAll (dir : RowDir) : List Bytes → Except RowDirError RowDir
  | [] => .ok dir
  | file :: rest => do
    let dir ← dir.loadFromRun file
    dir.loadAll rest

end RowDir

/-- Each file is the flushed run of a fresh directory after its group of updates. -/
def Flushed (groups : List (List DirOp)) (files : List Bytes) : Prop :=
  List.Forall₂ (fun ops file => ∃ createdUnixS,
    (RowDir.new.applyAll ops).flushToRun createdUnixS = .ok file) groups files

section Entries

theorem decodeEntry_encodeEntry (entry : RowDirEntry) :
    decodeEntry (encodeEntry entry) = .ok entry := by
  cases entry with
  | live head =>
    simp [decodeEntry, encodeEntry, FilePtr.decode_encode]
  | tombstone => rfl

theorem decodeRowIdKey_encodeRowIdKey (rowId : UInt64) :
    decodeRowIdKey (encodeRowIdKey rowId) = .ok rowId := by
  have hnat : beNat (beBytes 8 rowId.toNat) = rowId.toNat :=
    beNat_beBytes (by have := rowId.toNat_lt; omega)
  simp [decodeRowIdKey, encodeRowIdKey, hnat]

theorem compare_encodeRowIdKey (a b : UInt64) :
    compare (encodeRowIdKey a) (encodeRowIdKey b) = compare a b := by
  have ha : a.toNat < 256 ^ 8 := by have := a.toNat_lt; omega
  have hb : b.toNat < 256 ^ 8 := by have := b.toNat_lt; omega
  rw [encodeRowIdKey, encodeRowIdKey, compare_beBytes, Nat.mod_eq_of_lt ha, Nat.mod_eq_of_lt hb]
  change compareOfLessAndEq _ _ = compareOfLessAndEq _ _
  simp only [compareOfLessAndEq, UInt64.lt_iff_toNat_lt, ← UInt64.toNat_inj]

end Entries

section Replay

theorem getEntry_insert (dir : RowDir) (id rowId : UInt64) (entry : RowDirEntry) :
    RowDir.getEntry ⟨dir.map.insert id entry⟩ rowId =
      if id = rowId then some entry else dir.getEntry rowId := by
  simp [RowDir.getEntry, Std.TreeMap.getElem?_insert]

theorem getEntry_erase (dir : RowDir) (id rowId : UInt64) :
    RowDir.getEntry ⟨dir.map.erase id⟩ rowId =
      if id = rowId then none else dir.getEntry rowId := by
  simp [RowDir.getEntry, Std.TreeMap.getElem?_erase]

theorem sorted_runEntries (dir : RowDir) : Sorted RunEntry.key dir.runEntries := by
  rw [Sorted, RowDir.runEntries, List.pairwise_map]
  refine Std.TreeMap.ordered_keys_toList.imp fun hlt => ?_
  rwa [compare_encodeRowIdKey]

theorem flushToRun_holds {dir : RowDir} {createdUnixS : UInt64} {file : Bytes}
    (h : dir.flushToRun createdUnixS = .ok file) : Holds file dir.runEntries := by
  rcases writeRun_blocked RowDir.runBlockSize createdUnixS (sorted_runEntries dir) with hfull |
    ⟨info, createdUnixS', blocks, hok, hblocked⟩
  · simp [RowDir.flushToRun, hfull, Except.mapError, Except.map] at h
  · simp only [RowDir.flushToRun, hok, Except.mapError, Except.map] at h
    cases h
    exact hblocked.holds

/-- What a newer entry leaves of an older one when it is replayed over it. -/
def settle : Option RowDirEntry → Option RowDirEntry → Option RowDirEntry
  | some (.live head), _ => some (.live head)
  | some .tombstone, _ => none
  | none, older => older

/-- The entries of a run are replayed over a directory. -/
theorem replay_entries {items : List (UInt64 × RowDirEntry)}
    (hitems : items.Pairwise fun a b => compare a.1 b.1 = .lt) (dir : RowDir) :
    ∃ dir', dir.replay (items.map fun p => ⟨encodeRowIdKey p.1, encodeEntry p.2⟩) = .ok dir' ∧
      ∀ rowId, dir'.getEntry rowId =
        settle ((items.find? fun p => p.1 = rowId).map (·.2)) (dir.getEntry rowId) := by
  induction items generalizing dir with
  | nil => exact ⟨dir, rfl, fun _ => rfl⟩
  | cons p items ih =>
    rw [List.pairwise_cons] at hitems
    obtain ⟨id, entry⟩ := p
    have hlater : items.find? (fun p => p.1 = id) = none :=
      find_eq_none fun q hq => (compare_ne_of_lt (hitems.1 q hq)).symm
    simp only [List.map_cons, RowDir.replay, decodeRowIdKey_encodeRowIdKey,
      decodeEntry_encodeEntry, bind, Except.bind]
    cases entry with
    | live head =>
      obtain ⟨dir', hok, hget⟩ := ih hitems.2 ⟨dir.map.insert id (.live head)⟩
      refine ⟨dir', hok, ?_⟩
      intro rowId
      rw [hget, getEntry_insert]
      by_cases hid : id = rowId
      · subst hid
        simp [hlater, settle]
      · simp [hid]
    | tombstone =>
      obtain ⟨dir', hok, hget⟩ := ih hitems.2 ⟨dir.map.erase id⟩
      refine ⟨dir', hok, ?_⟩
      intro rowId
      rw [hget, getEntry_erase]
      by_cases hid : id = rowId
      · subst hid
        simp [hlater, settle]
      · simp [hid]

/-- Loading a flushed directory. -/
theorem loadFromRun_flushed {flushed : RowDir} {createdUnixS : UInt64} {file : Bytes}
    (h : flushed.flushToRun createdUnixS = .ok file) (dir : RowDir) :
    ∃ dir', dir.loadFromRun file = .ok dir' ∧
      ∀ rowId, dir'.getEntry rowId = settle (flushed.getEntry rowId) (dir.getEntry rowId) := by
  obtain ⟨r, hopen, hall, -⟩ := flushToRun_holds h
  obtain ⟨dir', hok, hget⟩ := replay_entries flushed.map.ordered_keys_toList dir
  refine ⟨dir', ?_, ?_⟩
  · simp only [RowDir.loadFromRun, hopen, hall, Except.mapError, bind, Except.bind]
    exact hok
  · intro rowId
    rw [hget, toList_find]
    rfl

end Replay

section Updates
variable {groups older newest : List (List DirOp)} {files olderFiles newestFiles : List Bytes}

/-- Updates hide the older entries of the rows they touch. -/
theorem getEntry_applyAll (dir : RowDir) (ops : List DirOp) (rowId : UInt64) :
    (dir.applyAll ops).getEntry rowId =
      ((RowDir.new.applyAll ops).getEntry rowId).or (dir.getEntry rowId) := by
  induction ops using List.reverseRecOn with
  | nil => simp [RowDir.applyAll, RowDir.new, RowDir.getEntry]
  | append_singleton ops op ih =>
    simp only [RowDir.applyAll, List.foldl_append, List.foldl_cons, List.foldl_nil] at ih ⊢
    cases op with
    | put id head =>
      simp only [RowDir.apply, RowDir.put, getEntry_insert, ih]
      split <;> rfl
    | remove id =>
      simp only [RowDir.apply, RowDir.remove, getEntry_insert, ih]
      split <;> rfl

theorem applyAll_append (dir : RowDir) (ops more : List DirOp) :
    dir.applyAll (ops ++ more) = (dir.applyAll ops).applyAll more := by
  rw [RowDir.applyAll, List.foldl_append]
  rfl

theorem settle_or (newer middle old : Option RowDirEntry) :
    settle newer (settle middle old) = settle (newer.or middle) old := by
  rcases newer with - | (head | -) <;> rfl

theorem loadAll_append {dir next : RowDir} (h : dir.loadAll files = .ok next) (more : List Bytes) :
    dir.loadAll (files ++ more) = next.loadAll more := by
  induction files generalizing dir with
  | nil =>
    cases h
    rfl
  | cons file files ih =>
    simp only [RowDir.loadAll, bind, Except.bind, List.cons_append] at h ⊢
    cases hload : dir.loadFromRun file with
    | error e => simp [hload] at h
    | ok loaded =>
      simp only [hload] at h
      exact ih h

/-- Loading the runs of groups of updates. -/
theorem loadAll_flushed (h : Flushed groups files) (dir : RowDir) :
    ∃ dir', dir.loadAll files = .ok dir' ∧ ∀ rowId, dir'.getEntry rowId =
      settle ((RowDir.new.applyAll groups.flatten).getEntry rowId) (dir.getEntry rowId) := by
  induction h generalizing dir with
  | nil => exact ⟨dir, rfl, fun _ => by simp [RowDir.applyAll, RowDir.new, RowDir.getEntry, settle]⟩
  | @cons ops file groups files hfile _ ih =>
    obtain ⟨createdUnixS, hflush⟩ := hfile
    obtain ⟨next, hload, hnext⟩ := loadFromRun_flushed hflush dir
    obtain ⟨dir', hok, hget⟩ := ih next
    refine ⟨dir', ?_, ?_⟩
    · simp only [RowDir.loadAll, hload, bind, Except.bind]
      exact hok
    · intro rowId
      rw [hget, hnext, settle_or, List.flatten_cons, applyAll_append, ← getEntry_applyAll]

theorem Flushed.append (holder : Flushed older olderFiles) (hnewest : Flushed newest newestFiles) :
    Flushed (older ++ newest) (olderFiles ++ newestFiles) := by
  induction holder with
  | nil => exact hnewest
  | cons hfile _ ih => exact List.Forall₂.cons hfile ih

theorem get_eq_of_settle {dir memory : RowDir} {rowId : UInt64}
    (h : dir.getEntry rowId = settle (memory.getEntry rowId) none) :
    dir.get rowId = memory.get rowId := by
  rw [RowDir.get, RowDir.get, h]
  rcases memory.getEntry rowId with - | (head | -) <;> rfl

/-- A replay drops the tombstones of the newer runs, so replaying the result over older runs shows
what those tombstones hid. -/
theorem settle_twice (newer old : Option RowDirEntry) :
    ((settle (settle newer none) (settle old none)).bind RowDirEntry.asLive =
        (settle (newer.or old) none).bind RowDirEntry.asLive) ↔
      (newer = some .tombstone → old.bind RowDirEntry.asLive = none) := by
  rcases newer with - | (head | -) <;> rcases old with - | (head' | -) <;>
    simp [settle, RowDirEntry.asLive]

end Updates

/-- Loading runs from the oldest to the newest gives the directory of the updates. When the newest
runs are replaced by one flush of the directory loaded from them, a row reads as before exactly
when they do not end with a tombstone over an older live row. -/
theorem rowdir_runs {older newest : List (List DirOp)} {olderFiles newestFiles : List Bytes}
    (holder : Flushed older olderFiles) (hnewest : Flushed newest newestFiles) :
    ∃ whole group, RowDir.new.loadAll (olderFiles ++ newestFiles) = .ok whole ∧
      RowDir.new.loadAll newestFiles = .ok group ∧
      (∀ rowId, whole.get rowId =
        (RowDir.new.applyAll (older.flatten ++ newest.flatten)).get rowId) ∧
      ∀ createdUnixS merged, group.flushToRun createdUnixS = .ok merged →
        ∃ replaced, RowDir.new.loadAll (olderFiles ++ [merged]) = .ok replaced ∧
          ∀ rowId, replaced.get rowId = whole.get rowId ↔
            ((RowDir.new.applyAll newest.flatten).getEntry rowId = some .tombstone →
              (RowDir.new.applyAll older.flatten).get rowId = none) := by
  obtain ⟨whole, hwhole, hwholeEntry⟩ := loadAll_flushed (holder.append hnewest) RowDir.new
  obtain ⟨group, hgroup, hgroupEntry⟩ := loadAll_flushed hnewest RowDir.new
  have hnew (rowId : UInt64) : RowDir.new.getEntry rowId = none := by
    simp [RowDir.new, RowDir.getEntry]
  simp only [hnew, List.flatten_append] at hwholeEntry hgroupEntry
  refine ⟨whole, group, hwhole, hgroup, fun rowId => get_eq_of_settle (hwholeEntry rowId), ?_⟩
  intro createdUnixS merged hmerged
  obtain ⟨before, hbefore, hbeforeEntry⟩ := loadAll_flushed holder RowDir.new
  obtain ⟨replaced, hreplaced, hreplacedEntry⟩ := loadFromRun_flushed hmerged before
  have hload : RowDir.new.loadAll (olderFiles ++ [merged]) = .ok replaced := by
    rw [loadAll_append hbefore]
    simp only [RowDir.loadAll, hreplaced, bind, Except.bind]
  refine ⟨replaced, hload, ?_⟩
  intro rowId
  rw [RowDir.get, RowDir.get, RowDir.get, hreplacedEntry, hgroupEntry, hbeforeEntry, hwholeEntry,
    hnew, applyAll_append, getEntry_applyAll (RowDir.new.applyAll older.flatten)]
  exact settle_twice _ _

/-- The run of one update. -/
def singleRun (op : DirOp) : Except RowDirError Bytes :=
  (RowDir.new.applyAll [op]).flushToRun 0

theorem flushed_single {op : DirOp} {file : Bytes} (h : singleRun op = .ok file) :
    Flushed [[op]] [file] :=
  List.Forall₂.cons ⟨0, h⟩ List.Forall₂.nil

/-- A row of an older run, and the tombstone of another row in a newer one. -/
theorem rowdir_runs_sample : ∃ olderFile newestFile whole group,
    Flushed [[.put 1 ⟨1, 64⟩]] [olderFile] ∧ Flushed [[.remove 2]] [newestFile] ∧
      RowDir.new.loadAll [olderFile, newestFile] = .ok whole ∧
      RowDir.new.loadAll [newestFile] = .ok group ∧ whole.get 1 = some ⟨1, 64⟩ ∧
      ∀ createdUnixS merged, group.flushToRun createdUnixS = .ok merged →
        ∃ replaced, RowDir.new.loadAll [olderFile, merged] = .ok replaced ∧
          replaced.get 2 = whole.get 2 := by
  obtain ⟨olderFile, holder⟩ : ∃ file, singleRun (.put 1 ⟨1, 64⟩) = .ok file := ⟨_, rfl⟩
  obtain ⟨newestFile, hnewest⟩ : ∃ file, singleRun (.remove 2) = .ok file := ⟨_, rfl⟩
  obtain ⟨whole, group, hwhole, hgroup, hget, hmerge⟩ :=
    rowdir_runs (flushed_single holder) (flushed_single hnewest)
  refine ⟨olderFile, newestFile, whole, group, flushed_single holder, flushed_single hnewest,
    hwhole, hgroup, (hget 1).trans (by decide), ?_⟩
  intro createdUnixS merged hmerged
  obtain ⟨replaced, hreplaced, hiff⟩ := hmerge createdUnixS merged hmerged
  exact ⟨replaced, hreplaced, (hiff 2).mpr (fun _ => by decide)⟩

/-- Merging a run of one tombstone brings the older row back. -/
theorem rowdir_merge_resurrects : ∃ olderFile newestFile merged whole group replaced,
    Flushed [[.put 1 ⟨1, 64⟩]] [olderFile] ∧ Flushed [[.remove 1]] [newestFile] ∧
      RowDir.new.loadAll [olderFile, newestFile] = .ok whole ∧
      RowDir.new.loadAll [newestFile] = .ok group ∧ group.flushToRun 0 = .ok merged ∧
      RowDir.new.loadAll [olderFile, merged] = .ok replaced ∧
      whole.get 1 = none ∧ replaced.get 1 = some ⟨1, 64⟩ := by
  have hrun : (do
      let olderFile ← singleRun (.put 1 ⟨1, 64⟩)
      let newestFile ← singleRun (.remove 1)
      let whole ← RowDir.new.loadAll [olderFile, newestFile]
      let group ← RowDir.new.loadAll [newestFile]
      let merged ← group.flushToRun 0
      let replaced ← RowDir.new.loadAll [olderFile, merged]
      .ok (whole.get 1, replaced.get 1)) =
        (.ok (none, some ⟨1, 64⟩) : Except RowDirError _) := by decide +kernel
  obtain ⟨olderFile, holder, hrun⟩ := bind_eq_ok hrun
  obtain ⟨newestFile, hnewest, hrun⟩ := bind_eq_ok hrun
  obtain ⟨whole, hwhole, hrun⟩ := bind_eq_ok hrun
  obtain ⟨group, hgroup, hrun⟩ := bind_eq_ok hrun
  obtain ⟨merged, hmerged, hrun⟩ := bind_eq_ok hrun
  obtain ⟨replaced, hreplaced, hrun⟩ := bind_eq_ok hrun
  obtain ⟨hgone, hback⟩ := Prod.mk.inj (Except.ok.inj hrun)
  exact ⟨olderFile, newestFile, merged, whole, group, replaced, flushed_single holder,
    flushed_single hnewest, hwhole, hgroup, hmerged, hreplaced, hgone, hback⟩

end SkeinDB.Rows
