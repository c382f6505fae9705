import SkeinDB.Runs.Block

/-!
# Run files

`skeindb-core/src/run.rs`: the writer of an immutable sorted run, which cuts the entries into
blocks, and its reader, which finds a key through the index of first keys.
-/
namespace SkeinDB.Runs
open SkeinDB.Codec SkeinDB.Format SkeinDB.Search

structure RunMetadata where
  entryCount : ℕ
  blockCount : ℕ
  indexOffset : ℕ
  fileCrc32c : UInt32
  fileSize : ℕ
  deriving DecidableEq, Repr

/-- A writer over the contents of its file. -/
structure RunWriter where
  file : Bytes
  targetBlockSize : ℕ
  pendingEntries : List RunEntry
  pendingBytes : ℕ
  index : List RunIndexEntry
  currentOffset : ℕ
  lastKey : Option Bytes
  entryCount : ℕ
  finished : Bool
  deriving DecidableEq, Repr

def estimateEntryBytes (key value : Bytes) : ℕ := 2 + key.length + value.length + 20

namespace RunWriter

def create (targetBlockSize : ℕ) (createdUnixS : UInt64) : Except RunError RunWriter := do
  let file ← (fileAppend [] (FileHeader.new .run 0 createdUnixS).encode).mapError .io
  .ok ⟨file, targetBlockSize, [], 0, [], fileHeaderLen, none, 0, false⟩

def flushPendingBlock (w : RunWriter) : Except RunError RunWriter :=
  match w.pendingEntries with
  | [] => .ok w
  | first :: _ => do
    let payload := encodeDataBlock w.pendingEntries
    let file ← (fileAppend w.file payload).mapError .io
    .ok { w with
      file := file
      index := w.index ++ [⟨first.key, w.currentOffset⟩]
      currentOffset := saturatingAdd w.currentOffset payload.length
      pendingEntries := []
      pendingBytes := 0 }

/-- The entry joins the pending block. -/
def push (w : RunWriter) (key value : Bytes) : RunWriter :=
  { w with
    pendingBytes := saturatingAdd w.pendingBytes (estimateEntryBytes key value)
    pendingEntries := w.pendingEntries ++ [⟨key, value⟩]
    lastKey := some key
    entryCount := saturatingAdd w.entryCount 1 }

def append (w : RunWriter) (key value : Bytes) : Except RunError RunWriter :=
  if w.finished then .error .writerFinished
  else if w.lastKey.any fun last => (compare key last).isLE then
    .error .keysNotStrictlyIncreasing
  else if max w.targetBlockSize 256 ≤ (w.push key value).pendingBytes then
    (w.push key value).flushPendingBlock
  else .ok (w.push key value)

/-- The metadata and the contents of the finished file. -/
def finish (w : RunWriter) : Except RunError (RunMetadata × Bytes) :=
  if w.finished then .error .writerFinished
  else do
    let w ← w.flushPendingBlock
    let indexOffset := w.currentOffset
    let indexBlock := encodeIndexBlock w.index
    let preFooter ← (fileAppend w.file indexBlock).mapError .io
    let footer : RunFooter := ⟨indexOffset, crc32c preFooter⟩
    let file ← (fileAppend preFooter footer.encode).mapError .io
    let fileSize := saturatingAdd (saturatingAdd indexOffset indexBlock.length) runFooterLen
    .ok (⟨w.entryCount, w.index.length, indexOffset, footer.fileCrc32c, fileSize⟩, file)

/-- The loop of the callers: one append for each entry. -/
def appendAll (w : RunWriter) : List RunEntry → Except RunError RunWriter
  | [] => .ok w
  | e :: es => do
    let w ← w.append e.key e.value
    w.appendAll es

end RunWriter

/-- Create a run, append every entry to it and finish it. -/
def writeRun (targetBlockSize : ℕ) (createdUnixS : UInt64) (entries : List RunEntry) :
    Except RunError (RunMetadata × Bytes) := do
  let w ← RunWriter.create targetBlockSize createdUnixS
  let w ← w.appendAll entries
  w.finish

/-- A reader over the contents of its file. -/
structure RunReader where
  file : Bytes
  indexOffset : ℕ
  footer : RunFooter
  index : List RunIndexEntry
  deriving DecidableEq, Repr

def validateRunHeader (file : Bytes) : Except RunError Unit :=
  if file.length < fileHeaderLen then .error .badHeader
  else match FileHeader.decode (file.take fileHeaderLen) with
    | .error e => .error (.format e)
    | .ok header => if header.fileKind ≠ .run then .error .badHeader else .ok ()

/-- Each block starts behind the one before it. -/
def offsetsIncreasing : List RunIndexEntry → Bool
  | a :: b :: index => a.blockOffset < b.blockOffset && offsetsIncreasing (b :: index)
  | _ => true

namespace RunReader

def «open» (file : Bytes) : Except RunError RunReader := do
  validateRunHeader file
  let len := file.length
  if len < fileHeaderLen + runFooterLen then .error .badFooter
  else
    let footer ← RunFooter.decode (file.drop (len - runFooterLen))
    if footer.indexOffset < fileHeaderLen ∨ len - runFooterLen < footer.indexOffset then
      .error .badFooter
    else
      let expectedCrc := footer.fileCrc32c
      let actualCrc := crc32c (file.take (len - runFooterLen))
      -- a zero in the footer means that the file carries no checksum
      if expectedCrc ≠ 0 ∧ expectedCrc ≠ actualCrc then
        .error (.footerCrcMismatch expectedCrc actualCrc)
      else
        let index ← decodeIndexBlock ((file.take (len - runFooterLen)).drop footer.indexOffset)
        if ¬ offsetsIncreasing index then
          .error (.invalidBlock "index block offsets must be strictly increasing")
        else if index.getLast?.any fun last => footer.indexOffset ≤ last.blockOffset then
          .error .badFooter
        else .ok ⟨file, footer.indexOffset, footer, index⟩

def readBlockEntries (r : RunReader) (idx : ℕ) : Except RunError (List RunEntry) :=
  match r.index[idx]? with
  | none => .error (.invalidBlock "missing data block index entry")
  | some entry =>
    let start := entry.blockOffset
    let stop := (r.index[idx + 1]?).elim r.indexOffset (·.blockOffset)
    if stop ≤ start ∨ r.file.length < stop then
      .error (.invalidBlock "data block offset range is invalid")
    else decodeDataBlock ((r.file.take stop).drop start)

/-- The loop of `read_all` over the remaining block numbers. -/
def readBlocks (r : RunReader) : List ℕ → Except RunError (List RunEntry)
  | [] => .ok []
  | idx :: rest => do
    let entries ← r.readBlockEntries idx
    let more ← r.readBlocks rest
    .ok (entries ++ more)

def readAll (r : RunReader) : Except RunError (List RunEntry) :=
  r.readBlocks (List.range r.index.length)

def findBlockForKey (r : RunReader) (key : Bytes) : Option ℕ :=
  if r.index = [] then none
  else
    match partitionPoint (fun i => (r.index[i]?).any fun e => (compare e.firstKey key).isLE)
      r.index.length 0 r.index.length with
    | 0 => none
    | idx + 1 => some idx

def get (r : RunReader) (key : Bytes) : Except RunError (Option Bytes) :=
  match r.findBlockForKey key with
  | none => .ok none
  | some idx => do
    let entries ← r.readBlockEntries idx
    .ok ((scan RunEntry.key key entries).map (·.value))

end RunReader

section Layout
variable {w w' : RunWriter} {blocks : List (List RunEntry)} {entries : List RunEntry}

def firstKey (block : List RunEntry) : Bytes := (block.head?.map (·.key)).getD []

/-- The index of blocks that lie one behind the other from an offset on. -/
def indexOf : ℕ → List (List RunEntry) → List RunIndexEntry
  | _, [] => []
  | offset, b :: bs => ⟨firstKey b, offset⟩ :: indexOf (offset + (encodeDataBlock b).length) bs

theorem indexOf_append (offset : ℕ) (bs : List (List RunEntry)) (b : List RunEntry) :
    indexOf offset (bs ++ [b]) =
      indexOf offset bs ++ [⟨firstKey b, offset + (bs.flatMap encodeDataBlock).length⟩] := by
  induction bs generalizing offset with
  | nil => simp [indexOf]
  | cons c bs ih => simp [indexOf, ih, Nat.add_assoc]

/-- What a writer has put into its file, and what it still holds back. -/
structure Layout (w : RunWriter) (blocks : List (List RunEntry)) (entries : List RunEntry) :
    Prop where
  file : ∃ createdUnixS, w.file =
    (FileHeader.new .run 0 createdUnixS).encode ++ blocks.flatMap encodeDataBlock
  index : w.index = indexOf fileHeaderLen blocks
  offset : w.currentOffset = w.file.length
  size : w.file.length < 2 ^ 63
  nonempty : ∀ b ∈ blocks, b ≠ []
  cut : blocks.flatten ++ w.pendingEntries = entries
  sorted : Sorted RunEntry.key entries
  lastKey : w.lastKey = entries.getLast?.map (·.key)
  unfinished : w.finished = false

theorem Layout.length (h : Layout w blocks entries) :
    w.file.length = fileHeaderLen + (blocks.flatMap encodeDataBlock).length := by
  obtain ⟨createdUnixS, hfile⟩ := h.file
  rw [hfile, List.length_append, FileHeader.encode_length]

theorem create_layout (targetBlockSize : ℕ) (createdUnixS : UInt64) :
    ∃ w, RunWriter.create targetBlockSize createdUnixS = .ok w ∧ Layout w [] [] := by
  have hsmall : 0 + fileHeaderLen < 2 ^ 63 := by simp [fileHeaderLen]
  refine ⟨⟨(FileHeader.new .run 0 createdUnixS).encode, targetBlockSize, [], 0, [],
    fileHeaderLen, none, 0, false⟩, ?_, ?_⟩
  · simp only [RunWriter.create, fileAppend, List.nil_append, List.length_nil,
      FileHeader.encode_length, if_pos hsmall, Except.mapError, bind, Except.bind]
  · exact ⟨⟨createdUnixS, by simp⟩, rfl, by simp, by simp [fileHeaderLen], by simp, rfl,
      List.Pairwise.nil, rfl, rfl⟩

/-- A flush moves the pending entries into a block of their own, or the file is full. -/
theorem Layout.flush (h : Layout w blocks entries) :
    w.flushPendingBlock = .error (.io .fileTooLarge) ∨ ∃ w' blocks',
      w.flushPendingBlock = .ok w' ∧ Layout w' blocks' entries ∧ w'.pendingEntries = [] := by
  cases hpending : w.pendingEntries with
  | nil =>
    refine Or.inr ⟨w, blocks, ?_, h, hpending⟩
    simp [RunWriter.flushPendingBlock, hpending]
  | cons first rest =>
    by_cases hsize : w.file.length + (encodeDataBlock (first :: rest)).length < 2 ^ 63
    · have hok : w.flushPendingBlock = .ok { w with
          file := w.file ++ encodeDataBlock (first :: rest)
          index := w.index ++ [⟨first.key, w.currentOffset⟩]
          currentOffset := saturatingAdd w.currentOffset (encodeDataBlock (first :: rest)).length
          pendingEntries := []
          pendingBytes := 0 } := by
        simp only [RunWriter.flushPendingBlock, hpending, fileAppend, if_pos hsize,
          Except.mapError, bind, Except.bind]
      refine Or.inr ⟨_, blocks ++ [first :: rest], hok, ?_, rfl⟩
      obtain ⟨createdUnixS, hfile⟩ := h.file
      have hoffset : saturatingAdd w.currentOffset (encodeDataBlock (first :: rest)).length =
          w.file.length + (encodeDataBlock (first :: rest)).length := by
        rw [saturatingAdd, h.offset]
        omega
      constructor
      · exact ⟨createdUnixS, by simp [hfile]⟩
      · rw [indexOf_append, h.index, h.offset, h.length]
        rfl
      · simpa using hoffset
      · simpa using hsize
      · intro b hb
        rcases List.mem_append.mp hb with hb | hb
        · exact h.nonempty b hb
        · simp [List.mem_singleton.mp hb]
      · simpa [hpending] using h.cut
      · exact h.sorted
      · exact h.lastKey
      · exact h.unfinished
    · left
      simp only [RunWriter.flushPendingBlock, hpending, fileAppend, if_neg hsize,
        Except.mapError, bind, Except.bind]

/-- A key above the last one joins the pending entries. -/
theorem Layout.push (h : Layout w blocks entries) {key : Bytes} (value : Bytes)
    (hkey : ∀ e ∈ entries, compare e.key key = .lt) :
    Layout (w.push key value) blocks (entries ++ [⟨key, value⟩]) := by
  constructor
  · exact h.file
  · exact h.index
  · exact h.offset
  · exact h.size
  · exact h.nonempty
  · simp [RunWriter.push, ← h.cut]
  · refine List.pairwise_append.mpr ⟨h.sorted, List.pairwise_singleton _ _, ?_⟩
    intro e he x hx
    obtain rfl := List.mem_singleton.mp hx
    exact hkey e he
  · simp [RunWriter.push]
  · exact h.unfinished

theorem Layout.append (h : Layout w blocks entries) {key : Bytes} (value : Bytes)
    (hkey : ∀ e ∈ entries, compare e.key key = .lt) :
    w.append key value = .error (.io .fileTooLarge) ∨ ∃ w' blocks',
      w.append key value = .ok w' ∧ Layout w' blocks' (entries ++ [⟨key, value⟩]) := by
  have hlast : ¬ w.lastKey.any fun last => (compare key last).isLE := by
    rw [h.lastKey]
    cases hend : entries.getLast? with
    | none => simp
    | some e =>
      have hgt : compare key e.key = .gt :=
        Std.OrientedCmp.gt_of_lt (hkey e (List.mem_of_getLast? hend))
      simp [hgt]
  rw [RunWriter.append, if_neg (by simp [h.unfinished]), if_neg hlast]
  have hpush := h.push value hkey
  split
  · rcases hpush.flush with hfull | ⟨w', blocks', hok, hlayout, -⟩
    · exact Or.inl hfull
    · exact Or.inr ⟨w', blocks', hok, hlayout⟩
  · exact Or.inr ⟨_, blocks, rfl, hpush⟩

theorem Layout.appendAll {more : List RunEntry} (h : Layout w blocks entries)
    (hs : Sorted RunEntry.key (entries ++ more)) :
    w.appendAll more = .error (.io .fileTooLarge) ∨ ∃ w' blocks',
      w.appendAll more = .ok w' ∧ Layout w' blocks' (entries ++ more) := by
  induction more generalizing w blocks entries with
  | nil => exact Or.inr ⟨w, blocks, rfl, by simpa using h⟩
  | cons e es ih =>
    have hkey : ∀ x ∈ entries, compare x.key e.key = .lt := by
      intro x hx
      exact (List.pairwise_append.mp hs).2.2 x hx e (by simp)
    rcases h.append e.value hkey with hfull | ⟨w', blocks', hok, hlayout⟩
    · left
      simp only [RunWriter.appendAll, hfull, bind, Except.bind]
    · have hrest := ih hlayout (by simpa using hs)
      simp only [RunWriter.appendAll, hok, bind, Except.bind]
      simpa using hrest

/-- The header and the data blocks of a run. -/
def runBody (createdUnixS : UInt64) (blocks : List (List RunEntry)) : Bytes :=
  (FileHeader.new .run 0 createdUnixS).encode ++ blocks.flatMap encodeDataBlock

def runPreFooter (createdUnixS : UInt64) (blocks : List (List RunEntry)) : Bytes :=
  runBody createdUnixS blocks ++ encodeIndexBlock (indexOf fileHeaderLen blocks)

def runFooter (createdUnixS : UInt64) (blocks : List (List RunEntry)) : RunFooter :=
  ⟨(runBody createdUnixS blocks).length, crc32c (runPreFooter createdUnixS blocks)⟩

/-- A finished run of these blocks. -/
def runFile (createdUnixS : UInt64) (blocks : List (List RunEntry)) : Bytes :=
  runPreFooter createdUnixS blocks ++ (runFooter createdUnixS blocks).encode

/-- The blocks of a finished run of the entries. -/
structure Blocked (createdUnixS : UInt64) (blocks : List (List RunEntry))
    (entries : List RunEntry) : Prop where
  size : (runFile createdUnixS blocks).length < 2 ^ 63
  nonempty : ∀ b ∈ blocks, b ≠ []
  cut : blocks.flatten = entries
  sorted : Sorted RunEntry.key entries

theorem Layout.finish (h : Layout w blocks entries) :
    w.finish = .error (.io .fileTooLarge) ∨ ∃ info createdUnixS blocks',
      w.finish = .ok (info, runFile createdUnixS blocks') ∧
        Blocked createdUnixS blocks' entries := by
  have hfinished : ¬ w.finished := by simp [h.unfinished]
  rcases h.flush with hfull | ⟨w', blocks', hok, hlayout, hpending⟩
  · left
    simp only [RunWriter.finish, if_neg hfinished, hfull, bind, Except.bind]
  · obtain ⟨createdUnixS, hfile⟩ := hlayout.file
    have hbody : w'.file = runBody createdUnixS blocks' := hfile
    have hpre : runBody createdUnixS blocks' ++ encodeIndexBlock (indexOf fileHeaderLen blocks') =
        runPreFooter createdUnixS blocks' := rfl
    simp only [RunWriter.finish, if_neg hfinished, hok, bind, Except.bind, fileAppend,
      hlayout.index, hlayout.offset, hbody, hpre]
    by_cases hindex : (runBody createdUnixS blocks').length +
        (encodeIndexBlock (indexOf fileHeaderLen blocks')).length < 2 ^ 63
    · simp only [if_pos hindex, Except.mapError]
      by_cases hsize : (runPreFooter createdUnixS blocks').length +
          (runFooter createdUnixS blocks').encode.length < 2 ^ 63
      · have hfits : (runFile createdUnixS blocks').length < 2 ^ 63 := by
          rwa [runFile, List.length_append]
        rw [runFooter] at hsize
        rw [if_pos hsize]
        refine Or.inr ⟨_, createdUnixS, blocks', rfl, hfits, hlayout.nonempty, ?_, hlayout.sorted⟩
        simpa [hpending] using hlayout.cut
      · rw [runFooter] at hsize
        rw [if_neg hsize]
        exact Or.inl rfl
    · simp only [if_neg hindex, Except.mapError, true_or]

/-- Sorted entries are written, or the file grows over the limit of file sizes. -/
theorem writeRun_blocked (targetBlockSize : ℕ) (createdUnixS : UInt64)
    (hs : Sorted RunEntry.key entries) :
    writeRun targetBlockSize createdUnixS entries = .error (.io .fileTooLarge) ∨
      ∃ info createdUnixS' blocks, writeRun targetBlockSize createdUnixS entries =
        .ok (info, runFile createdUnixS' blocks) ∧ Blocked createdUnixS' blocks entries := by
  obtain ⟨w, hcreate, hlayout⟩ := create_layout targetBlockSize createdUnixS
  simp only [writeRun, hcreate, bind, Except.bind]
  have hs' : Sorted RunEntry.key ([] ++ entries) := hs
  rcases hlayout.appendAll hs' with hfull | ⟨w', blocks, hok, hlayout'⟩
  · simp only [hfull, true_or]
  · simp only [hok]
    exact hlayout'.finish

end Layout

section Index
variable {blocks : List (List RunEntry)}

theorem encodeDataBlock_pos (block : List RunEntry) : 0 < (encodeDataBlock block).length := by
  simp [encodeDataBlock]

theorem indexOf_getElem? (offset : ℕ) (blocks : List (List RunEntry)) (idx : ℕ) :
    (indexOf offset blocks)[idx]? = (blocks[idx]?).map fun b =>
      ⟨firstKey b, offset + ((blocks.take idx).flatMap encodeDataBlock).length⟩ := by
  induction blocks generalizing offset idx with
  | nil => simp [indexOf]
  | cons b bs ih =>
    cases idx with
    | zero => simp [indexOf]
    | succ idx => simp [indexOf, ih, Nat.add_assoc]

@[simp] theorem indexOf_length (offset : ℕ) (blocks : List (List RunEntry)) :
    (indexOf offset blocks).length = blocks.length := by
  induction blocks generalizing offset with
  | nil => rfl
  | cons b bs ih => simp [indexOf, ih]

/-- An index entry points at a block in front of the end of the data. -/
theorem mem_indexOf {offset : ℕ} {e : RunIndexEntry} (he : e ∈ indexOf offset blocks) :
    (∃ b ∈ blocks, e.firstKey = firstKey b) ∧ offset ≤ e.blockOffset ∧
      e.blockOffset < offset + (blocks.flatMap encodeDataBlock).length := by
  induction blocks generalizing offset with
  | nil => cases he
  | cons b bs ih =>
    have hpos := encodeDataBlock_pos b
    rw [List.flatMap_cons, List.length_append]
    rcases List.mem_cons.mp he with rfl | he
    · exact ⟨⟨b, by simp, rfl⟩, le_rfl, by dsimp only; omega⟩
    · obtain ⟨⟨c, hc, hkey⟩, hle, hlt⟩ := ih he
      exact ⟨⟨c, by simp [hc], hkey⟩, by omega, by omega⟩

theorem offsetsIncreasing_indexOf (offset : ℕ) (blocks : List (List RunEntry)) :
    offsetsIncreasing (indexOf offset blocks) := by
  induction blocks generalizing offset with
  | nil => rfl
  | cons b bs ih =>
    cases bs with
    | nil => rfl
    | cons c bs =>
      have hpos := encodeDataBlock_pos b
      have hrest := ih (offset + (encodeDataBlock b).length)
      simp only [indexOf, offsetsIncreasing] at hrest ⊢
      simp [hrest, hpos]

theorem firstKey_mem {block : List RunEntry} (h : block ≠ []) :
    ∃ e ∈ block, firstKey block = e.key := by
  obtain ⟨first, rest, rfl⟩ := List.exists_cons_of_ne_nil h
  exact ⟨first, by simp, rfl⟩

theorem sorted_indexOf {offset : ℕ} (hs : Sorted RunEntry.key blocks.flatten)
    (hne : ∀ b ∈ blocks, b ≠ []) : Sorted RunIndexEntry.firstKey (indexOf offset blocks) := by
  induction blocks generalizing offset with
  | nil => exact List.Pairwise.nil
  | cons b bs ih =>
    rw [List.flatten_cons, Sorted, List.pairwise_append] at hs
    refine List.pairwise_cons.mpr ⟨?_, ih hs.2.1 fun c hc => hne c (by simp [hc])⟩
    intro e he
    obtain ⟨⟨c, hc, hkey⟩, -⟩ := mem_indexOf he
    obtain ⟨x, hx, hfirst⟩ := firstKey_mem (hne b (by simp))
    obtain ⟨y, hy, hother⟩ := firstKey_mem (hne c (by simp [hc]))
    rw [hkey, hother]
    exact hfirst ▸ hs.2.2 x hx y (List.mem_flatten.mpr ⟨c, hc, hy⟩)

end Index

section Reading
variable {createdUnixS : UInt64} {blocks : List (List RunEntry)} {entries : List RunEntry}

/-- The reader of a finished run. -/
def runReader (createdUnixS : UInt64) (blocks : List (List RunEntry)) : RunReader :=
  ⟨runFile createdUnixS blocks, (runBody createdUnixS blocks).length,
    runFooter createdUnixS blocks, indexOf fileHeaderLen blocks⟩

theorem runBody_length (createdUnixS : UInt64) (blocks : List (List RunEntry)) :
    (runBody createdUnixS blocks).length =
      fileHeaderLen + (blocks.flatMap encodeDataBlock).length := by
  rw [runBody, List.length_append, FileHeader.encode_length]

theorem validateRunHeader_ok (createdUnixS : UInt64) (rest : Bytes) :
    validateRunHeader ((FileHeader.new .run 0 createdUnixS).encode ++ rest) = .ok () := by
  have hdecode := FileHeader.decode_encode (FileHeader.new .run 0 createdUnixS) [] rfl
  rw [List.append_nil] at hdecode
  rw [validateRunHeader, if_neg (by simp), List.take_left' (FileHeader.encode_length _), hdecode]
  rfl

/-- A run with some checksum in its footer. -/
def runFileWith (createdUnixS : UInt64) (blocks : List (List RunEntry)) (crc : UInt32) : Bytes :=
  runPreFooter createdUnixS blocks ++
    RunFooter.encode ⟨(runBody createdUnixS blocks).length, crc⟩

def runReaderWith (createdUnixS : UInt64) (blocks : List (List RunEntry)) (crc : UInt32) :
    RunReader :=
  ⟨runFileWith createdUnixS blocks crc, (runBody createdUnixS blocks).length,
    ⟨(runBody createdUnixS blocks).length, crc⟩, indexOf fileHeaderLen blocks⟩

theorem runFileWith_length (createdUnixS : UInt64) (blocks : List (List RunEntry)) (crc : UInt32) :
    (runFileWith createdUnixS blocks crc).length =
      (runPreFooter createdUnixS blocks).length + runFooterLen := by
  rw [runFileWith, List.length_append, RunFooter.encode_length]

/-- A run opens when its footer has its checksum, or none. -/
theorem open_runFileWith (h : Blocked createdUnixS blocks entries) {crc : UInt32}
    (hcrc : crc = 0 ∨ crc = crc32c (runPreFooter createdUnixS blocks)) :
    RunReader.open (runFileWith createdUnixS blocks crc) =
      .ok (runReaderWith createdUnixS blocks crc) := by
  have hsize : (runFileWith createdUnixS blocks (crc32c (runPreFooter createdUnixS blocks))).length <
    2 ^ 63 := h.size
  have hbody := runBody_length createdUnixS blocks
  have hlen := runFileWith_length createdUnixS blocks crc
  rw [runFileWith_length] at hsize
  have hpre : (runPreFooter createdUnixS blocks).length = (runBody createdUnixS blocks).length +
      (encodeIndexBlock (indexOf fileHeaderLen blocks)).length := by
    rw [runPreFooter, List.length_append]
  have hheader : validateRunHeader (runFileWith createdUnixS blocks crc) = .ok () := by
    rw [runFileWith, runPreFooter, runBody, List.append_assoc, List.append_assoc]
    exact validateRunHeader_ok _ _
  have hfooter : RunFooter.decode ((runFileWith createdUnixS blocks crc).drop
      ((runFileWith createdUnixS blocks crc).length - runFooterLen)) =
        .ok ⟨(runBody createdUnixS blocks).length, crc⟩ := by
    rw [hlen, Nat.add_sub_cancel, runFileWith, List.drop_left]
    exact RunFooter.decode_encode (by dsimp only; omega)
  have hfront : (runFileWith createdUnixS blocks crc).take
      ((runFileWith createdUnixS blocks crc).length - runFooterLen) =
        runPreFooter createdUnixS blocks := by
    rw [hlen, Nat.add_sub_cancel, runFileWith, List.take_left]
  have hindex : decodeIndexBlock ((runPreFooter createdUnixS blocks).drop
      (runBody createdUnixS blocks).length) = .ok (indexOf fileHeaderLen blocks) := by
    rw [runPreFooter, List.drop_left]
    refine decodeIndexBlock_encode (sorted_indexOf (h.cut ▸ h.sorted) h.nonempty) ?_ (by omega)
    intro e he
    have := (mem_indexOf he).2.2
    omega
  have hlast : ¬ (indexOf fileHeaderLen blocks).getLast?.any fun last =>
      (runBody createdUnixS blocks).length ≤ last.blockOffset := by
    cases hend : (indexOf fileHeaderLen blocks).getLast? with
    | none => simp
    | some last =>
      have := (mem_indexOf (List.mem_of_getLast? hend)).2.2
      rw [Option.any_some, decide_eq_true_iff, not_le, hbody]
      exact this
  have hchecked : ¬ (crc ≠ 0 ∧ crc ≠ crc32c (runPreFooter createdUnixS blocks)) := by
    rintro ⟨hzero, hother⟩
    exact hcrc.elim hzero hother
  simp only [RunReader.open, hheader, hfooter, hfront, hindex, bind, Except.bind]
  rw [if_neg (by omega), if_neg (by omega), if_neg hchecked,
    if_neg (by simp [offsetsIncreasing_indexOf]), if_neg hlast]
  rfl

theorem open_runFile (h : Blocked createdUnixS blocks entries) :
    RunReader.open (runFile createdUnixS blocks) = .ok (runReader createdUnixS blocks) :=
  open_runFileWith h (.inr rfl)

/-- A block is read back from its place in the file. -/
theorem readBlockEntries_runReaderWith (h : Blocked createdUnixS blocks entries) (crc : UInt32)
    {idx : ℕ} {block : List RunEntry} (hblock : blocks[idx]? = some block) :
    (runReaderWith createdUnixS blocks crc).readBlockEntries idx = .ok block := by
  obtain ⟨hidx, rfl⟩ := List.getElem?_eq_some_iff.mp hblock
  let front := (FileHeader.new .run 0 createdUnixS).encode ++
    (blocks.take idx).flatMap encodeDataBlock
  let after := (blocks.drop (idx + 1)).flatMap encodeDataBlock ++
    (encodeIndexBlock (indexOf fileHeaderLen blocks) ++
      RunFooter.encode ⟨(runBody createdUnixS blocks).length, crc⟩)
  have hsplit : blocks = blocks.take idx ++ blocks[idx] :: blocks.drop (idx + 1) := by
    rw [← List.drop_eq_getElem_cons hidx, List.take_append_drop]
  have hflat : blocks.flatMap encodeDataBlock = (blocks.take idx).flatMap encodeDataBlock ++
      (encodeDataBlock blocks[idx] ++ (blocks.drop (idx + 1)).flatMap encodeDataBlock) := by
    conv_lhs => rw [hsplit]
    rw [List.flatMap_append, List.flatMap_cons]
  have hfile : runFileWith createdUnixS blocks crc =
      front ++ (encodeDataBlock blocks[idx] ++ after) := by
    simp [runFileWith, runPreFooter, runBody, front, after, hflat]
  have hstart : (indexOf fileHeaderLen blocks)[idx]? =
      some ⟨firstKey blocks[idx], front.length⟩ := by
    rw [indexOf_getElem?, hblock]
    simp [front]
  have hstop : ((indexOf fileHeaderLen blocks)[idx + 1]?).elim
      (runBody createdUnixS blocks).length (·.blockOffset) =
        front.length + (encodeDataBlock blocks[idx]).length := by
    rw [indexOf_getElem?]
    cases hnext : blocks[idx + 1]? with
    | none =>
      have hend : blocks.drop (idx + 1) = [] :=
        List.drop_eq_nil_of_le (List.getElem?_eq_none_iff.mp hnext)
      simp [runBody_length, hflat, hend, front, Nat.add_assoc]
    | some next =>
      have htake : (blocks.take (idx + 1)).flatMap encodeDataBlock =
          (blocks.take idx).flatMap encodeDataBlock ++ encodeDataBlock blocks[idx] := by
        rw [List.take_add_one, hblock, List.flatMap_append]
        simp
      rw [Option.map_some, Option.elim_some, htake]
      simp only [front, List.length_append, FileHeader.encode_length, Nat.add_assoc]
  have hpos := encodeDataBlock_pos blocks[idx]
  have hlen := congrArg List.length hfile
  simp only [List.length_append] at hlen
  have hsize : (runFileWith createdUnixS blocks (crc32c (runPreFooter createdUnixS blocks))).length <
    2 ^ 63 := h.size
  rw [runFileWith_length, ← runFileWith_length createdUnixS blocks crc] at hsize
  simp only [RunReader.readBlockEntries, runReaderWith, hstart, hstop]
  rw [if_neg (by omega), hfile, ← List.append_assoc, List.take_left' (by simp), List.drop_left]
  refine decodeDataBlock_encode ?_ (by omega)
  have hsorted : Sorted RunEntry.key blocks.flatten := h.cut ▸ h.sorted
  exact hsorted.sublist (List.sublist_flatten_of_mem (List.getElem_mem hidx))

theorem readBlockEntries_runReader (h : Blocked createdUnixS blocks entries) {idx : ℕ}
    {block : List RunEntry} (hblock : blocks[idx]? = some block) :
    (runReader createdUnixS blocks).readBlockEntries idx = .ok block :=
  readBlockEntries_runReaderWith h _ hblock

theorem readAll_runReaderWith (h : Blocked createdUnixS blocks entries) (crc : UInt32) :
    (runReaderWith createdUnixS blocks crc).readAll = .ok entries := by
  have hloop : ∀ n ≤ blocks.length,
      (runReaderWith createdUnixS blocks crc).readBlocks (List.range' (blocks.length - n) n) =
        .ok (blocks.drop (blocks.length - n)).flatten := by
    intro n hn
    induction n with
    | zero => simp [RunReader.readBlocks]
    | succ n ih =>
      have hlt : blocks.length - (n + 1) < blocks.length := by omega
      have hnext : blocks.length - (n + 1) + 1 = blocks.length - n := by omega
      rw [List.range'_succ, RunReader.readBlocks, List.drop_eq_getElem_cons hlt, hnext,
        readBlockEntries_runReaderWith h crc (List.getElem?_eq_getElem hlt)]
      simp only [bind, Except.bind, ih (by omega), List.flatten_cons]
  have hall := hloop blocks.length le_rfl
  rw [Nat.sub_self, List.drop_zero, h.cut, ← List.range_eq_range'] at hall
  simpa [RunReader.readAll, runReaderWith] using hall

theorem readAll_runReader (h : Blocked createdUnixS blocks entries) :
    (runReader createdUnixS blocks).readAll = .ok entries :=
  readAll_runReaderWith h _

/-- The search over the first keys is the search over the blocks. -/
theorem findBlockForKey_runReader (h : Blocked createdUnixS blocks entries) (key : Bytes) :
    (runReader createdUnixS blocks).findBlockForKey key =
      match blocksBy RunEntry.key key blocks with
      | 0 => none
      | idx + 1 => some idx := by
  have hstarts : (fun i : ℕ => ((indexOf fileHeaderLen blocks)[i]?).any fun (e : RunIndexEntry) =>
      (compare e.firstKey key).isLE) =
        fun i : ℕ => (blocks[i]?).any (startsBy RunEntry.key key) := by
    funext i
    rw [indexOf_getElem?]
    cases hblock : blocks[i]? with
    | none => rfl
    | some block =>
      obtain ⟨first, rest, rfl⟩ :=
        List.exists_cons_of_ne_nil (h.nonempty _ (List.mem_of_getElem? hblock))
      rfl
  simp only [RunReader.findBlockForKey, runReader, hstarts, indexOf_length]
  split
  · rename_i hnil
    have hblocks : blocks = [] := by
      cases hb : blocks with
      | nil => rfl
      | cons b bs => simp [hb, indexOf] at hnil
    rw [hblocks]
    rfl
  · rfl

theorem get_runReader (h : Blocked createdUnixS blocks entries) (key : Bytes) :
    (runReader createdUnixS blocks).get key =
      .ok ((entries.find? fun e => e.key = key).map (·.value)) := by
  have hsorted : Sorted RunEntry.key blocks.flatten := h.cut ▸ h.sorted
  rw [RunReader.get, findBlockForKey_runReader h]
  rcases find_blocksBy key hsorted h.nonempty with ⟨hzero, hnone⟩ |
    ⟨idx, block, hcount, hblock, hfind⟩
  · rw [hzero, ← h.cut, hnone]
    rfl
  · have hblockSorted : Sorted RunEntry.key block :=
      hsorted.sublist (List.sublist_flatten_of_mem (List.mem_of_getElem? hblock))
    rw [hcount]
    simp only [readBlockEntries_runReader h hblock, bind, Except.bind]
    rw [scan_eq_find hblockSorted, ← hfind, h.cut]

end Reading

/-- What opening a run of the entries gives. -/
def Holds (file : Bytes) (entries : List RunEntry) : Prop :=
  ∃ r, RunReader.open file = .ok r ∧ r.readAll = .ok entries ∧
    ∀ key, r.get key = .ok ((entries.find? fun e => e.key = key).map (·.value))

theorem Blocked.holds {createdUnixS : UInt64} {blocks : List (List RunEntry)}
    {entries : List RunEntry} (h : Blocked createdUnixS blocks entries) :
    Holds (runFile createdUnixS blocks) entries :=
  ⟨_, open_runFile h, readAll_runReader h, get_runReader h⟩

/-- Whatever the block size, a run of sorted entries reads back as them, in a scan and key by
key. The writer refuses them only when the file would be too large. -/
theorem run_round_trip (targetBlockSize : ℕ) (createdUnixS : UInt64) {entries : List RunEntry}
    (hs : Sorted RunEntry.key entries) :
    writeRun targetBlockSize createdUnixS entries = .error (.io .fileTooLarge) ∨
      ∃ info file, writeRun targetBlockSize createdUnixS entries = .ok (info, file) ∧
        Holds file entries := by
  rcases writeRun_blocked targetBlockSize createdUnixS hs with hfull |
    ⟨info, createdUnixS', blocks, hok, hblocked⟩
  · exact Or.inl hfull
  · exact Or.inr ⟨info, _, hok, hblocked.holds⟩

/-- Three entries, the first of which fills a block. -/
theorem run_round_trip_sample :
    let entries : List RunEntry :=
      [⟨[1], List.replicate 240 7⟩, ⟨[1, 0], [8]⟩, ⟨[2], []⟩]
    Sorted RunEntry.key entries ∧ ∃ info file, writeRun 0 0 entries = .ok (info, file) ∧
      info.blockCount = 2 ∧ Holds file entries := by
  intro entries
  have hs : Sorted RunEntry.key entries := by
    unfold Sorted
    decide
  have hcount : (writeRun 0 0 entries).map (·.1.blockCount) = .ok 2 := by decide +kernel
  refine ⟨hs, ?_⟩
  rcases run_round_trip 0 0 hs with hfull | ⟨info, file, hok, hholds⟩
  · rw [hfull] at hcount
    cases hcount
  · rw [hok] at hcount
    exact ⟨info, file, hok, by simpa [Except.map] using hcount, hholds⟩

end SkeinDB.Runs
