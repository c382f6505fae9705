import SkeinDB.Rows.Segment
import SkeinDB.Rows.RowDir

/-!
# Snapshot visibility over version chains

`skeindb-core/src/mvcc.rs`: a lookup walks the chain of a row from its head and returns the
first version whose window covers the snapshot. Segments are append-only, so a version that
was loaded once loads again after any growth of the files.
-/
namespace SkeinDB.Rows
open SkeinDB.Codec SkeinDB.Format

structure Snapshot where
  asOfTs : Option UInt64
  deriving DecidableEq, Repr

namespace Snapshot

def latest : Snapshot := ⟨none⟩

def asOf (ts : UInt64) : Snapshot := ⟨some ts⟩

/-- A version that has not begun is staged and never visible. -/
def isRowVisible (snapshot : Snapshot) (row : RowVersion) : Bool :=
  if row.beginTs = 0 then false
  else
    let snapshotTs := snapshot.asOfTs.getD (UInt64.ofNat (2 ^ 64 - 1))
    row.beginTs ≤ snapshotTs && (row.endTs == 0 || row.endTs > snapshotTs)

end Snapshot

inductive MvccError
  | missingSegment (fileId : UInt32)
  | chainCycle (ptr : FilePtr)
  | rowIdMismatch (expected actual : UInt64)
  | tableIdMismatch (expected actual : UInt32)
  | rowSeg (err : RowSegError)
  deriving DecidableEq, Repr

structure RowSegmentSet where
  readers : Std.TreeMap UInt32 RowSegmentReader

namespace RowSegmentSet

def new : RowSegmentSet := ⟨∅⟩

/-- The reader of the file replaces the one of the same file id. -/
def insertPath (segments : RowSegmentSet) (file : Bytes) : Except MvccError RowSegmentSet := do
  let reader ← (RowSegmentReader.open file).mapError .rowSeg
  .ok ⟨segments.readers.insert reader.fileId reader⟩

def loadRowVersion (segments : RowSegmentSet) (ptr : FilePtr) : Except MvccError RowVersion :=
  match segments.readers[ptr.fileId]? with
  | none => .error (.missingSegment ptr.fileId)
  | some reader => ((reader.readAt ptr.offset.toNat).mapError .rowSeg).map (·.row)

end RowSegmentSet

structure VisibleVersion where
  ptr : FilePtr
  row : RowVersion
  hops : ℕ
  deriving DecidableEq, Repr

inductive MvccLookup
  | missing
  | deleted (version : VisibleVersion)
  | visible (version : VisibleVersion)
  deriving DecidableEq, Repr

def MvccLookup.isMissing : MvccLookup → Bool
  | .missing => true
  | _ => false

/-- The version a lookup has found. -/
def MvccLookup.version? : MvccLookup → Option VisibleVersion
  | .missing => none
  | .deleted version => some version
  | .visible version => some version

/-- A visible version is a row or a delete marker. -/
def MvccLookup.found (version : VisibleVersion) : MvccLookup :=
  if version.row.isDelete then .deleted version else .visible version

def checkRowId (expected : Option UInt64) (row : RowVersion) : Except MvccError Unit :=
  match expected with
  | none => .ok ()
  | some expected =>
    if row.rowId ≠ expected then .error (.rowIdMismatch expected row.rowId) else .ok ()

def checkTableId (expected : Option UInt32) (row : RowVersion) : Except MvccError Unit :=
  match expected with
  | none => .ok ()
  | some expected =>
    if row.tableId ≠ expected then .error (.tableIdMismatch expected row.tableId) else .ok ()

/-- The loop of `resolve_chain`. The ids of the first version are expected of all others. -/
def resolveLoop (load : FilePtr → Except MvccError RowVersion) (snapshot : Snapshot) :
    ℕ → List FilePtr → ℕ → Option UInt64 → Option UInt32 → FilePtr → Except MvccError MvccLookup
  | 0, _, _, _, _, ptr => .error (.chainCycle ptr)
  | fuel + 1, seen, hops, rowId, tableId, ptr =>
    if ptr ∈ seen then .error (.chainCycle ptr)
    else do
      let row ← load ptr
      checkRowId rowId row
      checkTableId tableId row
      if snapshot.isRowVisible row then .ok (.found ⟨ptr, row, hops + 1⟩)
      else if row.prevPtr.isNone then .ok .missing
      else
        resolveLoop load snapshot fuel (ptr :: seen) (hops + 1) (some row.rowId)
          (some row.tableId) row.prevPtr

/-- There are `2 ^ 96` pointers, and the loop stops at one it has seen. -/
def chainFuel : ℕ := 2 ^ 96 + 1

def resolveChain (load : FilePtr → Except MvccError RowVersion) (ptr : FilePtr)
    (rowId : Option UInt64) (tableId : Option UInt32) (snapshot : Snapshot) :
    Except MvccError MvccLookup :=
  if ptr.isNone then .ok .missing
  else resolveLoop load snapshot chainFuel [] 0 rowId tableId ptr

def resolveRowId (rowDir : RowDir) (load : FilePtr → Except MvccError RowVersion)
    (rowId : UInt64) (snapshot : Snapshot) : Except MvccError MvccLookup :=
  match rowDir.get rowId with
  | none => .ok .missing
  | some head => resolveChain load head (some rowId) none snapshot

section Chains
variable {load load' : FilePtr → Except MvccError RowVersion} {snapshot snapshot' : Snapshot}
  {fuel hops : ℕ} {seen : List FilePtr} {rowId : Option UInt64} {tableId : Option UInt32}
  {ptr : FilePtr} {lookup : MvccLookup} {version : VisibleVersion}

/-- The version a number of steps down the chain. -/
def versionAt (load : FilePtr → Except MvccError RowVersion) :
    ℕ → FilePtr → Except MvccError RowVersion
  | 0, ptr => load ptr
  | n + 1, ptr => do
    let row ← load ptr
    versionAt load n row.prevPtr

@[simp] theorem version?_found (version : VisibleVersion) :
    (MvccLookup.found version).version? = some version := by
  unfold MvccLookup.found
  split <;> rfl

/-- What one round of the loop has done when a lookup comes back. -/
theorem resolveLoop_eq_ok
    (h : resolveLoop load snapshot (fuel + 1) seen hops rowId tableId ptr = .ok lookup) :
    ∃ row, ptr ∉ seen ∧ load ptr = .ok row ∧ checkRowId rowId row = .ok () ∧
      checkTableId tableId row = .ok () ∧
      (if snapshot.isRowVisible row then lookup = .found ⟨ptr, row, hops + 1⟩
        else if row.prevPtr.isNone then lookup = .missing
        else resolveLoop load snapshot fuel (ptr :: seen) (hops + 1) (some row.rowId)
          (some row.tableId) row.prevPtr = .ok lookup) := by
  unfold resolveLoop at h
  split at h
  · cases h
  rename_i hseen
  cases hload : load ptr with
  | error e => simp [hload, bind, Except.bind] at h
  | ok row =>
    cases hrow : checkRowId rowId row with
    | error e => simp [hload, hrow, bind, Except.bind] at h
    | ok _ =>
      cases htable : checkTableId tableId row with
      | error e => simp [hload, hrow, htable, bind, Except.bind] at h
      | ok _ =>
        simp only [hload, hrow, htable, bind, Except.bind] at h
        refine ⟨row, hseen, rfl, hrow, htable, ?_⟩
        split at h
        · rename_i hvisible
          rw [if_pos hvisible]
          exact (Except.ok.inj h).symm
        · rename_i hvisible
          rw [if_neg hvisible]
          split at h
          · rename_i hnone
            rw [if_pos hnone]
            exact (Except.ok.inj h).symm
          · rename_i hnone
            rw [if_neg hnone]
            exact h

theorem resolveLoop_step {row : RowVersion} (hseen : ptr ∉ seen) (hload : load ptr = .ok row)
    (hrow : checkRowId rowId row = .ok ()) (htable : checkTableId tableId row = .ok ()) :
    resolveLoop load snapshot (fuel + 1) seen hops rowId tableId ptr =
      if snapshot.isRowVisible row then .ok (.found ⟨ptr, row, hops + 1⟩)
      else if row.prevPtr.isNone then .ok .missing
      else resolveLoop load snapshot fuel (ptr :: seen) (hops + 1) (some row.rowId)
        (some row.tableId) row.prevPtr := by
  simp only [resolveLoop, if_neg hseen, hload, hrow, htable, bind, Except.bind]

/-- A lookup comes back again from every set of segments that loads at least as much. -/
theorem resolveLoop_mono (hload : ∀ p row, load p = .ok row → load' p = .ok row)
    (h : resolveLoop load snapshot fuel seen hops rowId tableId ptr = .ok lookup) :
    resolveLoop load' snapshot fuel seen hops rowId tableId ptr = .ok lookup := by
  induction fuel generalizing seen hops rowId tableId ptr with
  | zero => cases h
  | succ fuel ih =>
    obtain ⟨row, hseen, hrow, hrowId, htableId, hnext⟩ := resolveLoop_eq_ok h
    rw [resolveLoop_step hseen (hload ptr row hrow) hrowId htableId]
    split
    · rename_i hvisible
      rw [if_pos hvisible] at hnext
      rw [hnext]
    · rename_i hvisible
      rw [if_neg hvisible] at hnext
      split
      · rename_i hnone
        rw [if_pos hnone] at hnext
        rw [hnext]
      · rename_i hnone
        rw [if_neg hnone] at hnext
        exact ih hnext

/-- A version found at one snapshot is found at another one that sees it exactly when no version
in front of it is seen there. -/
theorem resolveLoop_again
    (h : resolveLoop load snapshot fuel seen hops rowId tableId ptr = .ok lookup)
    (hversion : lookup.version? = some version) (hsees : snapshot'.isRowVisible version.row) :
    hops < version.hops ∧
      (resolveLoop load snapshot' fuel seen hops rowId tableId ptr = .ok lookup ↔
        ∀ n, hops + n + 1 < version.hops → ∀ row, versionAt load n ptr = .ok row →
          ¬ snapshot'.isRowVisible row) := by
  induction fuel generalizing seen hops rowId tableId ptr with
  | zero => cases h
  | succ fuel ih =>
    obtain ⟨row, hseen, hrow, hrowId, htableId, hnext⟩ := resolveLoop_eq_ok h
    rw [resolveLoop_step hseen hrow hrowId htableId]
    by_cases hvisible : snapshot.isRowVisible row
    · rw [if_pos hvisible] at hnext
      subst hnext
      rw [version?_found] at hversion
      obtain rfl := Option.some.inj hversion
      rw [if_pos hsees]
      refine ⟨by simp, ?_⟩
      simp only [true_iff]
      intro n hn
      omega
    · rw [if_neg hvisible] at hnext
      by_cases hnone : row.prevPtr.isNone
      · rw [if_pos hnone] at hnext
        simp [hnext, MvccLookup.version?] at hversion
      · rw [if_neg hnone] at hnext
        obtain ⟨hlt, hiff⟩ := ih hnext
        refine ⟨by omega, ?_⟩
        by_cases hnow : snapshot'.isRowVisible row
        · rw [if_pos hnow]
          constructor
          · intro hsame
            rw [← Except.ok.inj hsame, version?_found] at hversion
            obtain rfl := Option.some.inj hversion
            simp at hlt
          · intro hfront
            exact absurd hnow (hfront 0 (by omega) row hrow)
        · rw [if_neg hnow, if_neg hnone, hiff]
          constructor
          · intro hfront n hn x hx
            cases n with
            | zero =>
              rw [versionAt, hrow] at hx
              obtain rfl := Except.ok.inj hx
              exact hnow
            | succ n =>
              simp only [versionAt, hrow, bind, Except.bind] at hx
              exact hfront n (by omega) x hx
          · intro hfront n hn x hx
            refine hfront (n + 1) (by omega) x ?_
            simp only [versionAt, hrow, bind, Except.bind, hx]

theorem filePtr_length_le {ptrs : List FilePtr} (h : ptrs.Nodup) : ptrs.length ≤ 2 ^ 96 := by
  let code (p : FilePtr) : ℕ := 2 ^ 64 * p.fileId.toNat + p.offset.toNat
  have hcode : ∀ p q : FilePtr, code p = code q → p = q := by
    intro p q hpq
    have hp := p.offset.toNat_lt
    have hq := q.offset.toNat_lt
    obtain ⟨pid, poffset⟩ := p
    obtain ⟨qid, qoffset⟩ := q
    simp only [code] at hpq hp hq
    have hid : pid = qid := UInt32.toNat.inj (by omega)
    have hoffset : poffset = qoffset := UInt64.toNat.inj (by omega)
    rw [hid, hoffset]
  have hsubset : (ptrs.map code).toFinset ⊆ Finset.range (2 ^ 96) := by
    intro n hn
    obtain ⟨p, -, rfl⟩ := List.mem_map.mp (List.mem_toFinset.mp hn)
    have hid := p.fileId.toNat_lt
    have hoffset := p.offset.toNat_lt
    simp only [Finset.mem_range, code]
    omega
  have hcard := Finset.card_le_card hsubset
  rwa [List.toFinset_card_of_nodup (h.map fun p q => hcode p q), List.length_map,
    Finset.card_range] at hcard

/-- The loop stops by itself: more rounds than there are pointers change nothing. -/
theorem resolveLoop_fuel (hseen : seen.Nodup) (hfuel : 2 ^ 96 < fuel + seen.length) :
    resolveLoop load snapshot (fuel + 1) seen hops rowId tableId ptr =
      resolveLoop load snapshot fuel seen hops rowId tableId ptr := by
  induction fuel generalizing seen hops rowId tableId ptr with
  | zero =>
    have := filePtr_length_le hseen
    omega
  | succ fuel ih =>
    rw [resolveLoop, resolveLoop]
    by_cases hptr : ptr ∈ seen
    · rw [if_pos hptr, if_pos hptr]
    · have hnodup : (ptr :: seen).Nodup := List.nodup_cons.mpr ⟨hptr, hseen⟩
      have hleft : 2 ^ 96 < fuel + (ptr :: seen).length := by
        rw [List.length_cons]
        omega
      simp only [ih hnodup hleft]

end Chains

section Growth
variable {segments segments' : RowSegmentSet} {file : Bytes}

/-- The file continues the one it replaces. -/
def AppendOnly (segments : RowSegmentSet) (file : Bytes) : Prop :=
  ∀ reader old, RowSegmentReader.open file = .ok reader →
    segments.readers[reader.fileId]? = some old → old.file <+: file

/-- Every reader sees its file to the end. -/
def RowSegmentSet.Whole (segments : RowSegmentSet) : Prop :=
  ∀ (fileId : UInt32) (reader : RowSegmentReader), segments.readers[fileId]? = some reader →
    reader.endOffset = reader.file.length

theorem open_eq_ok {reader : RowSegmentReader} (h : RowSegmentReader.open file = .ok reader) :
    reader.file = file ∧ reader.endOffset = file.length := by
  cases hheader : readSegmentHeader file with
  | error e => simp [RowSegmentReader.open, hheader, bind, Except.bind] at h
  | ok header =>
    simp only [RowSegmentReader.open, hheader, bind, Except.bind] at h
    cases h
    exact ⟨rfl, rfl⟩

theorem insertPath_eq_ok (h : segments.insertPath file = .ok segments') :
    ∃ reader, RowSegmentReader.open file = .ok reader ∧
      segments' = ⟨segments.readers.insert reader.fileId reader⟩ := by
  cases hopen : RowSegmentReader.open file with
  | error e => simp [RowSegmentSet.insertPath, hopen, Except.mapError, bind, Except.bind] at h
  | ok reader =>
    simp only [RowSegmentSet.insertPath, hopen, Except.mapError, bind, Except.bind] at h
    exact ⟨reader, rfl, (Except.ok.inj h).symm⟩

theorem Whole.insertPath (hwhole : segments.Whole) (h : segments.insertPath file = .ok segments') :
    segments'.Whole := by
  obtain ⟨reader, hopen, rfl⟩ := insertPath_eq_ok h
  obtain ⟨hfile, hend⟩ := open_eq_ok hopen
  intro fileId other hother
  rw [Std.TreeMap.getElem?_insert] at hother
  split at hother
  · obtain rfl := Option.some.inj hother
    rw [hend, hfile]
  · exact hwhole fileId other hother

/-- What was loaded once loads again after an append-only segment has grown. -/
theorem loadRowVersion_grow (hwhole : segments.Whole) (happend : AppendOnly segments file)
    (h : segments.insertPath file = .ok segments') {ptr : FilePtr} {row : RowVersion}
    (hload : segments.loadRowVersion ptr = .ok row) :
    segments'.loadRowVersion ptr = .ok row := by
  obtain ⟨reader, hopen, rfl⟩ := insertPath_eq_ok h
  obtain ⟨hfile, hend⟩ := open_eq_ok hopen
  unfold RowSegmentSet.loadRowVersion at hload ⊢
  rw [Std.TreeMap.getElem?_insert]
  by_cases hsame : compare reader.fileId ptr.fileId = .eq
  · rw [if_pos hsame]
    have hid : reader.fileId = ptr.fileId := Std.LawfulEqOrd.eq_of_compare hsame
    cases hold : segments.readers[ptr.fileId]? with
    | none => simp [hold] at hload
    | some old =>
      simp only [hold] at hload
      have hgrow := happend reader old hopen (by rw [hid, hold])
      cases hread : old.readAt ptr.offset.toNat with
      | error e => simp [hread, Except.mapError, Except.map] at hload
      | ok entry =>
        have hagain := readAt_grow (hwhole _ _ hold) (by rw [hend, hfile])
          (by rw [hfile]; exact hgrow) hread
        rw [hread] at hload
        simp only [hagain]
        exact hload
  · rw [if_neg hsame]
    exact hload

end Growth

end SkeinDB.Rows
