import SkeinDB.Codec.Checked
import SkeinDB.Runs.File

/-!
# Run files of any bytes

`RunReader` of `skeindb-core/src/run.rs` with its indices, its slices, its additions and the
capacities of its vectors checked. Counts and key lengths come from the file: a capacity or the
addition to a key length is the only fault they can bring about.
-/
namespace SkeinDB.Runs
open SkeinDB.Codec SkeinDB.Format SkeinDB.Search Checked

/-- The size of a `RunEntry`, two vectors of three words each. -/
def runEntrySize : ℕ := 48

/-- The size of a `RunIndexEntry`, a vector and an offset. -/
def runIndexEntrySize : ℕ := 32

def decodeBlockHeaderRun (blockType : UInt8) (short : String) (bytes : Bytes) :
    Checked RunError (UInt64 × Bytes) :=
  if bytes.length < 2 then .error (.err (.invalidBlock short))
  else do
    let first ← itemAt bytes 0
    if first ≠ blockType then .error (.err (.invalidBlockType first))
    else
      let second ← itemAt bytes 1
      if second ≠ blockVersion then .error (.err (.unsupportedBlockVersion second))
      else
        let rest ← slice bytes 2 bytes.length
        lift ((decodeVaru rest).mapError .core)

def decodeBytesRun (what : String) (rest : Bytes) : Checked RunError (Bytes × Bytes) := do
  let (len, rest) ← lift ((decodeVaru rest).mapError .core)
  if rest.length < len.toNat then .error (.err (.invalidBlock what))
  else
    let bytes ← slice rest 0 len.toNat
    let rest ← slice rest len.toNat rest.length
    .ok (bytes, rest)

def decodeEntriesRun : ℕ → Option Bytes → Bytes → Checked RunError (List RunEntry × Bytes)
  | 0, _, rest => .ok ([], rest)
  | count + 1, lastKey, rest => do
    let (key, rest) ← decodeBytesRun "data block key exceeds remaining bytes" rest
    let (value, rest) ← decodeBytesRun "data block value exceeds remaining bytes" rest
    lift (checkKey "data block keys must be strictly increasing" lastKey key)
    let (entries, rest) ← decodeEntriesRun count (some key) rest
    .ok (⟨key, value⟩ :: entries, rest)

def decodeDataBlockRun (bytes : Bytes) : Checked RunError (List RunEntry) := do
  let (count, rest) ←
    decodeBlockHeaderRun dataBlockType "data block is shorter than header" bytes
  let _ : List RunEntry ← withCapacity runEntrySize count.toNat
  let (entries, rest) ← decodeEntriesRun count.toNat none rest
  if rest ≠ [] then .error (.err (.invalidBlock "trailing bytes after data block"))
  else .ok entries

def decodeIndexEntriesRun :
    ℕ → Option Bytes → Bytes → Checked RunError (List RunIndexEntry × Bytes)
  | 0, _, rest => .ok ([], rest)
  | count + 1, lastKey, rest => do
    let (keyLen, rest) ← lift ((decodeVaru rest).mapError .core)
    let entryLen ← add keyLen.toNat 8
    if rest.length < entryLen then
      .error (.err (.invalidBlock "index block entry exceeds remaining bytes"))
    else
      let firstKey ← slice rest 0 keyLen.toNat
      let rest ← slice rest keyLen.toNat rest.length
      let offsetBytes ← slice rest 0 8
      let rest ← slice rest 8 rest.length
      lift (checkKey "index block first keys must be strictly increasing" lastKey firstKey)
      let (index, rest) ← decodeIndexEntriesRun count (some firstKey) rest
      .ok (⟨firstKey, leNat offsetBytes⟩ :: index, rest)

def decodeIndexBlockRun (bytes : Bytes) : Checked RunError (List RunIndexEntry) := do
  let (count, rest) ←
    decodeBlockHeaderRun indexBlockType "index block is shorter than header" bytes
  let _ : List RunIndexEntry ← withCapacity runIndexEntrySize count.toNat
  let (index, rest) ← decodeIndexEntriesRun count.toNat none rest
  if rest ≠ [] then .error (.err (.invalidBlock "trailing bytes after index block"))
  else .ok index

namespace RunReader

def openRun (file : Bytes) : Checked RunError RunReader := do
  lift (validateRunHeader file)
  let len := file.length
  if len < fileHeaderLen + runFooterLen then .error (.err .badFooter)
  else
    let footer ← lift (RunFooter.decode (file.drop (len - runFooterLen)))
    if footer.indexOffset < fileHeaderLen ∨ len - runFooterLen < footer.indexOffset then
      .error (.err .badFooter)
    else
      let checked ← slice file 0 (len - runFooterLen)
      if footer.fileCrc32c ≠ 0 ∧ footer.fileCrc32c ≠ crc32c checked then
        .error (.err (.footerCrcMismatch footer.fileCrc32c (crc32c checked)))
      else
        let block ← slice file footer.indexOffset (len - runFooterLen)
        let index ← decodeIndexBlockRun block
        if ¬ offsetsIncreasing index then
          .error (.err (.invalidBlock "index block offsets must be strictly increasing"))
        else if index.getLast?.any fun last => footer.indexOffset ≤ last.blockOffset then
          .error (.err .badFooter)
        else .ok ⟨file, footer.indexOffset, footer, index⟩

def readBlockEntriesRun (r : RunReader) (idx : ℕ) : Checked RunError (List RunEntry) :=
  match r.index[idx]? with
  | none => .error (.err (.invalidBlock "missing data block index entry"))
  | some entry =>
    let start := entry.blockOffset
    let stop := (r.index[idx + 1]?).elim r.indexOffset (·.blockOffset)
    if stop ≤ start ∨ r.file.length < stop then
      .error (.err (.invalidBlock "data block offset range is invalid"))
    else do
      let block ← slice r.file start stop
      decodeDataBlockRun block

def readBlocksRun (r : RunReader) : List ℕ → Checked RunError (List RunEntry)
  | [] => .ok []
  | idx :: rest => do
    let entries ← r.readBlockEntriesRun idx
    let more ← r.readBlocksRun rest
    .ok (entries ++ more)

def readAllRun (r : RunReader) : Checked RunError (List RunEntry) :=
  r.readBlocksRun (List.range r.index.length)

/-- The binary search of `find_block_for_key`. -/
def searchRun (r : RunReader) (key : Bytes) : ℕ → ℕ → ℕ → Checked RunError ℕ
  | 0, lo, _ => .ok lo
  | fuel + 1, lo, hi =>
    if lo < hi then do
      let sum ← add lo hi
      let entry ← itemAt r.index (sum / 2)
      if (compare entry.firstKey key).isLE then searchRun r key fuel (sum / 2 + 1) hi
      else searchRun r key fuel lo (sum / 2)
    else .ok lo

def findBlockForKeyRun (r : RunReader) (key : Bytes) : Checked RunError (Option ℕ) :=
  if r.index = [] then .ok none
  else do
    let lo ← r.searchRun key r.index.length 0 r.index.length
    match lo with
    | 0 => .ok none
    | idx + 1 => .ok (some idx)

def getRun (r : RunReader) (key : Bytes) : Checked RunError (Option Bytes) := do
  let found ← r.findBlockForKeyRun key
  match found with
  | none => .ok none
  | some idx =>
    let entries ← r.readBlockEntriesRun idx
    .ok ((scan RunEntry.key key entries).map (·.value))

end RunReader

section Blocks
variable {bytes : Bytes}

theorem decodeBlockHeaderRun_eq (blockType : UInt8) (short : String) (bytes : Bytes) :
    decodeBlockHeaderRun blockType short bytes = lift (decodeBlockHeader blockType short bytes) := by
  rcases bytes with _ | ⟨first, _ | ⟨second, rest⟩⟩
  · rfl
  · rfl
  · have hsecond : (itemAt (first :: second :: rest) 1 : Checked RunError UInt8) = .ok second := rfl
    have hrest : (slice (first :: second :: rest) 2 (first :: second :: rest).length :
        Checked RunError Bytes) = .ok rest := by
      rw [slice_eq (by simp), List.take_length]
      rfl
    rw [decodeBlockHeaderRun, decodeBlockHeader, if_neg (by simp), if_neg (by simp),
      itemAt_eq List.getElem?_cons_zero, hsecond, hrest]
    simp only [bind, Except.bind, List.getD_cons_zero, List.getD_cons_succ, List.drop_succ_cons,
      List.drop_zero]
    split_ifs <;> rfl

theorem decodeBytesRun_eq (what : String) (rest : Bytes) :
    decodeBytesRun what rest = lift (decodeBytes what rest) := by
  rw [decodeBytesRun, decodeBytes, lift_bind]
  refine bind_congr ?_
  rintro ⟨len, rest⟩
  dsimp only
  by_cases hshort : rest.length < len.toNat
  · simp only [hshort, if_true]
    rfl
  · simp only [hshort, if_false]
    rw [slice_eq (by omega), slice_eq (by omega), List.drop_zero, List.take_length]
    rfl

theorem decodeEntriesRun_eq (count : ℕ) (lastKey : Option Bytes) (rest : Bytes) :
    decodeEntriesRun count lastKey rest = lift (decodeEntries count lastKey rest) := by
  induction count generalizing lastKey rest with
  | zero => rfl
  | succ count ih =>
    rw [decodeEntriesRun, decodeEntries, decodeBytesRun_eq, lift_bind]
    refine bind_congr ?_
    rintro ⟨key, rest⟩
    dsimp only
    rw [decodeBytesRun_eq, lift_bind]
    refine bind_congr ?_
    rintro ⟨value, rest⟩
    dsimp only
    rw [lift_bind]
    refine bind_congr fun _ => ?_
    rw [ih, lift_bind]
    rfl

/-- The entries that a data block counts have room in a vector. -/
def DataFits (bytes : Bytes) : Prop :=
  ∀ count rest, decodeBlockHeader dataBlockType "data block is shorter than header" bytes =
    .ok (count, rest) → runEntrySize * count.toNat ≤ isizeMax

/-- The key lengths of an index block, up to that of the first entry that is refused, leave room
for the length of an offset in 64 bits. -/
def KeyLengthsFit : ℕ → Option Bytes → Bytes → Prop
  | 0, _, _ => True
  | count + 1, lastKey, rest =>
    ∀ keyLen rest', decodeVaru rest = .ok (keyLen, rest') → keyLen.toNat + 8 < 2 ^ 64 ∧
      (keyLen.toNat + 8 ≤ rest'.length →
        checkKey "index block first keys must be strictly increasing" lastKey
          (rest'.take keyLen.toNat) = .ok () →
        KeyLengthsFit count (some (rest'.take keyLen.toNat)) ((rest'.drop keyLen.toNat).drop 8))

/-- The entries that an index block counts have room in a vector, and their lengths in 64 bits. -/
def IndexFits (bytes : Bytes) : Prop :=
  ∀ count rest, decodeBlockHeader indexBlockType "index block is shorter than header" bytes =
    .ok (count, rest) →
      runIndexEntrySize * count.toNat ≤ isizeMax ∧ KeyLengthsFit count.toNat none rest

theorem decodeDataBlockRun_of_fits (h : DataFits bytes) :
    decodeDataBlockRun bytes = lift (decodeDataBlock bytes) := by
  rw [decodeDataBlockRun, decodeDataBlock, decodeBlockHeaderRun_eq]
  rcases hheader : decodeBlockHeader dataBlockType "data block is shorter than header" bytes with
    e | ⟨count, rest⟩
  · rfl
  · have hcapacity : (withCapacity runEntrySize count.toNat : Checked RunError (List RunEntry)) =
        .ok [] := if_pos (h _ _ hheader)
    simp only [bind, Except.bind, lift_ok, hcapacity, decodeEntriesRun_eq]
    rcases decodeEntries count.toNat none rest with e | ⟨entries, rest⟩
    · rfl
    · simp only [lift_ok]
      split_ifs <;> rfl

theorem decodeDataBlockRun_of_not_fits (h : ¬ DataFits bytes) :
    decodeDataBlockRun bytes = .error (.fault .capacityOverflow) := by
  rw [DataFits] at h
  push Not at h
  obtain ⟨count, rest, hheader, hlong⟩ := h
  have hcapacity : (withCapacity runEntrySize count.toNat : Checked RunError (List RunEntry)) =
      .error (.fault .capacityOverflow) := if_neg (not_le.mpr hlong)
  rw [decodeDataBlockRun, decodeBlockHeaderRun_eq, hheader]
  simp only [bind, Except.bind, lift_ok, hcapacity]

/-- The entries of an index block are decoded without a fault exactly when their lengths fit. -/
theorem decodeIndexEntriesRun_eq {count : ℕ} {lastKey : Option Bytes} {rest : Bytes} :
    (KeyLengthsFit count lastKey rest →
      decodeIndexEntriesRun count lastKey rest = lift (decodeIndexEntries count lastKey rest)) ∧
    (¬ KeyLengthsFit count lastKey rest →
      decodeIndexEntriesRun count lastKey rest = .error (.fault .arithmeticOverflow)) := by
  induction count generalizing lastKey rest with
  | zero => exact ⟨fun _ => rfl, fun h => absurd trivial h⟩
  | succ count ih =>
    rw [decodeIndexEntriesRun, decodeIndexEntries, KeyLengthsFit]
    rcases hvaru : decodeVaru rest with e | ⟨keyLen, rest'⟩
    · refine ⟨fun _ => rfl, fun h => absurd ?_ h⟩
      rintro keyLen rest' ⟨⟩
    have hforall : ∀ p : UInt64 → Bytes → Prop,
        (∀ k r, (Except.ok (keyLen, rest') : Except CoreError (UInt64 × Bytes)) = .ok (k, r) →
          p k r) ↔ p keyLen rest' := by
      intro p
      refine ⟨fun h => h _ _ rfl, ?_⟩
      rintro h k r ⟨⟩
      exact h
    rw [hforall]
    simp only [Except.mapError, bind, Except.bind, lift_ok]
    by_cases hlen : keyLen.toNat + 8 < 2 ^ 64
    swap
    · refine ⟨fun h => absurd h.1 hlen, fun _ => ?_⟩
      rw [add, if_neg hlen]
    rw [add_eq hlen]
    dsimp only
    by_cases hshort : rest'.length < keyLen.toNat + 8
    · rw [if_pos hshort, if_pos hshort]
      exact ⟨fun _ => rfl, fun h => absurd ⟨hlen, fun hle => absurd hle (by omega)⟩ h⟩
    rw [if_neg hshort, if_neg hshort, slice_eq (by omega)]
    dsimp only
    rw [slice_eq (by omega), List.take_length]
    dsimp only
    rw [slice_eq (by rw [List.length_drop]; omega)]
    dsimp only
    rw [slice_eq (by rw [List.length_drop]; omega), List.take_length, List.drop_zero, List.drop_zero]
    dsimp only
    rcases hkey : checkKey "index block first keys must be strictly increasing" lastKey
      (rest'.take keyLen.toNat) with e | _
    · exact ⟨fun _ => rfl, fun h => absurd ⟨hlen, fun _ hok => by cases hok⟩ h⟩
    dsimp only [lift_ok]
    have hfits : (keyLen.toNat + 8 < 2 ^ 64 ∧ (keyLen.toNat + 8 ≤ rest'.length →
        (Except.ok () : Except RunError Unit) = .ok () →
          KeyLengthsFit count (some (rest'.take keyLen.toNat)) ((rest'.drop keyLen.toNat).drop 8))) ↔
        KeyLengthsFit count (some (rest'.take keyLen.toNat)) ((rest'.drop keyLen.toNat).drop 8) :=
      ⟨fun h => h.2 (by omega) rfl, fun h => ⟨hlen, fun _ _ => h⟩⟩
    rw [hfits]
    refine ⟨fun h => ?_, fun h => ?_⟩
    · rw [ih.1 h]
      rcases decodeIndexEntries count (some (rest'.take keyLen.toNat))
        ((rest'.drop keyLen.toNat).drop 8) with e | ⟨index, rest''⟩
      · rfl
      · rfl
    · rw [ih.2 h]

theorem decodeIndexBlockRun_of_fits (h : IndexFits bytes) :
    decodeIndexBlockRun bytes = lift (decodeIndexBlock bytes) := by
  rw [decodeIndexBlockRun, decodeIndexBlock, decodeBlockHeaderRun_eq]
  rcases hheader : decodeBlockHeader indexBlockType "index block is shorter than header" bytes with
    e | ⟨count, rest⟩
  · rfl
  · obtain ⟨hcount, hlens⟩ := h _ _ hheader
    have hcapacity : (withCapacity runIndexEntrySize count.toNat :
        Checked RunError (List RunIndexEntry)) = .ok [] := if_pos hcount
    simp only [bind, Except.bind, lift_ok, hcapacity, decodeIndexEntriesRun_eq.1 hlens]
    rcases decodeIndexEntries count.toNat none rest with e | ⟨index, rest⟩
    · rfl
    · simp only [lift_ok]
      split_ifs <;> rfl

theorem decodeIndexBlockRun_of_not_fits (h : ¬ IndexFits bytes) :
    ∃ fault, decodeIndexBlockRun bytes = .error (.fault fault) ∧ fault ≠ .outOfBounds := by
  rw [IndexFits] at h
  push Not at h
  obtain ⟨count, rest, hheader, hlens⟩ := h
  rw [decodeIndexBlockRun, decodeBlockHeaderRun_eq, hheader]
  simp only [bind, Except.bind, lift_ok]
  rw [withCapacity]
  by_cases hcount : runIndexEntrySize * count.toNat ≤ isizeMax
  · rw [if_pos hcount, decodeIndexEntriesRun_eq.2 (hlens hcount)]
    exact ⟨.arithmeticOverflow, rfl, by decide⟩
  · rw [if_neg hcount]
    exact ⟨.capacityOverflow, rfl, by decide⟩

end Blocks

namespace RunReader
section Files
variable {file : Bytes} {r : RunReader} {footer : RunFooter} {index : List RunIndexEntry}

/-- The footer and the index block that `open` comes to. -/
def indexBlock (file : Bytes) : Except RunError (RunFooter × Bytes) := do
  validateRunHeader file
  let len := file.length
  if len < fileHeaderLen + runFooterLen then .error .badFooter
  else
    let footer ← RunFooter.decode (file.drop (len - runFooterLen))
    if footer.indexOffset < fileHeaderLen ∨ len - runFooterLen < footer.indexOffset then
      .error .badFooter
    else if footer.fileCrc32c ≠ 0 ∧ footer.fileCrc32c ≠ crc32c (file.take (len - runFooterLen)) then
      .error (.footerCrcMismatch footer.fileCrc32c (crc32c (file.take (len - runFooterLen))))
    else .ok (footer, (file.take (len - runFooterLen)).drop footer.indexOffset)

/-- The checks of `open` behind the index. -/
def checkIndex (file : Bytes) (footer : RunFooter) (index : List RunIndexEntry) :
    Except RunError RunReader :=
  if ¬ offsetsIncreasing index then
    .error (.invalidBlock "index block offsets must be strictly increasing")
  else if index.getLast?.any fun last => footer.indexOffset ≤ last.blockOffset then
    .error .badFooter
  else .ok ⟨file, footer.indexOffset, footer, index⟩

theorem open_eq (file : Bytes) : RunReader.open file = indexBlock file >>= fun opened =>
    decodeIndexBlock opened.2 >>= checkIndex file opened.1 := by
  rw [RunReader.open, indexBlock]
  simp only [bind_assoc]
  refine bind_congr fun _ => ?_
  split_ifs
  · rfl
  rw [bind_assoc]
  refine bind_congr fun footer => ?_
  split_ifs <;> rfl

theorem openRun_eq (file : Bytes) : openRun file = lift (indexBlock file) >>= fun opened =>
    decodeIndexBlockRun opened.2 >>= fun index => lift (checkIndex file opened.1 index) := by
  rw [openRun, indexBlock, lift_bind, bind_assoc]
  refine bind_congr fun _ => ?_
  dsimp only
  by_cases hlen : file.length < fileHeaderLen + runFooterLen
  · rw [if_pos hlen, if_pos hlen]
    rfl
  rw [if_neg hlen, if_neg hlen, lift_bind, bind_assoc]
  refine bind_congr fun footer => ?_
  by_cases hoffset : footer.indexOffset < fileHeaderLen ∨
      file.length - runFooterLen < footer.indexOffset
  · rw [if_pos hoffset, if_pos hoffset]
    rfl
  rw [if_neg hoffset, if_neg hoffset, slice_eq (by omega), List.drop_zero]
  dsimp only [bind, Except.bind]
  by_cases hcrc : footer.fileCrc32c ≠ 0 ∧
      footer.fileCrc32c ≠ crc32c (file.take (file.length - runFooterLen))
  · rw [if_pos hcrc, if_pos hcrc]
    rfl
  rw [if_neg hcrc, if_neg hcrc, slice_eq (by omega)]
  dsimp only [lift_ok]
  rcases decodeIndexBlockRun ((file.take (file.length - runFooterLen)).drop footer.indexOffset) with
    e | index
  · rfl
  · dsimp only [checkIndex]
    split_ifs <;> rfl

/-- The bytes of a data block. -/
def blockBytes (r : RunReader) (idx : ℕ) : Except RunError Bytes :=
  match r.index[idx]? with
  | none => .error (.invalidBlock "missing data block index entry")
  | some entry =>
    let start := entry.blockOffset
    let stop := (r.index[idx + 1]?).elim r.indexOffset (·.blockOffset)
    if stop ≤ start ∨ r.file.length < stop then
      .error (.invalidBlock "data block offset range is invalid")
    else .ok ((r.file.take stop).drop start)

theorem readBlockEntries_eq (r : RunReader) (idx : ℕ) :
    r.readBlockEntries idx = r.blockBytes idx >>= decodeDataBlock := by
  rw [readBlockEntries, blockBytes]
  rcases r.index[idx]? with _ | entry
  · rfl
  · dsimp only
    split_ifs <;> rfl

theorem readBlockEntriesRun_eq (r : RunReader) (idx : ℕ) :
    r.readBlockEntriesRun idx = lift (r.blockBytes idx) >>= decodeDataBlockRun := by
  rw [readBlockEntriesRun, blockBytes]
  rcases r.index[idx]? with _ | entry
  · rfl
  · dsimp only
    split_ifs with hrange
    · rfl
    · rw [slice_eq (by omega)]
      rfl

/-- The entries of every block that the index names have room in a vector. -/
def BlocksFit (r : RunReader) : Prop :=
  ∀ idx bytes, r.blockBytes idx = .ok bytes → DataFits bytes

theorem readBlockEntriesRun_of_fits (h : r.BlocksFit) (idx : ℕ) :
    r.readBlockEntriesRun idx = lift (r.readBlockEntries idx) := by
  rw [readBlockEntriesRun_eq, readBlockEntries_eq, lift_bind]
  rcases hbytes : r.blockBytes idx with e | bytes
  · rfl
  · exact decodeDataBlockRun_of_fits (h idx bytes hbytes)

theorem readBlocksRun_of_fits (h : r.BlocksFit) (idxs : List ℕ) :
    r.readBlocksRun idxs = lift (r.readBlocks idxs) := by
  induction idxs with
  | nil => rfl
  | cons idx idxs ih =>
    rw [readBlocksRun, readBlocks, readBlockEntriesRun_of_fits h, ih, lift_bind]
    refine bind_congr fun entries => ?_
    rw [lift_bind]
    rfl

/-- The search adds two bounds that are not above the length of the index. -/
theorem searchRun_eq (hindex : r.index.length < 2 ^ 63) (key : Bytes) {fuel lo hi : ℕ}
    (hhi : hi ≤ r.index.length) : r.searchRun key fuel lo hi = .ok (partitionPoint
      (fun i => (r.index[i]?).any fun e => (compare e.firstKey key).isLE) fuel lo hi) := by
  induction fuel generalizing lo hi with
  | zero => rfl
  | succ fuel ih =>
    rw [searchRun, partitionPoint]
    split_ifs with hlt
    · have hmid : (lo + hi) / 2 < r.index.length := by omega
      rw [add_eq (by omega)]
      dsimp only [bind, Except.bind]
      rw [itemAt_eq (List.getElem?_eq_getElem hmid), List.getElem?_eq_getElem hmid]
      dsimp only [Option.any_some]
      split_ifs with hle
      · exact ih hhi
      · exact ih hmid.le
    · rfl

theorem findBlockForKeyRun_eq (hindex : r.index.length < 2 ^ 63) (key : Bytes) :
    r.findBlockForKeyRun key = .ok (r.findBlockForKey key) := by
  rw [findBlockForKeyRun, findBlockForKey]
  split_ifs
  · rfl
  · rw [searchRun_eq hindex key le_rfl]
    dsimp only [bind, Except.bind]
    generalize partitionPoint _ r.index.length 0 r.index.length = lo
    cases lo <;> rfl

theorem getRun_eq (hindex : r.index.length < 2 ^ 63) (key : Bytes) :
    r.getRun key = (r.findBlockForKey key).elim (.ok none) fun idx =>
      r.readBlockEntriesRun idx >>= fun entries =>
        .ok ((scan RunEntry.key key entries).map (·.value)) := by
  rw [getRun, findBlockForKeyRun_eq hindex]
  cases r.findBlockForKey key <;> rfl

theorem safe_getRun (hindex : r.index.length < 2 ^ 63) (h : r.BlocksFit) (key : Bytes) :
    Safe (r.getRun key) := by
  rw [getRun_eq hindex]
  cases r.findBlockForKey key with
  | none => exact safe_lift (.ok none)
  | some idx =>
    have hlift : r.readBlockEntriesRun idx >>= (fun entries =>
        .ok ((scan RunEntry.key key entries).map (·.value))) =
        lift (r.readBlockEntries idx >>= fun entries =>
          .ok ((scan RunEntry.key key entries).map (·.value))) := by
      rw [readBlockEntriesRun_of_fits h, lift_bind]
      rfl
    rw [Option.elim_some, hlift]
    exact safe_lift _

/-- The search for the first key of a block finds the block. -/
theorem findBlockForKey_firstKey (hsorted : Sorted RunIndexEntry.firstKey r.index) {idx : ℕ}
    {entry : RunIndexEntry} (hentry : r.index[idx]? = some entry) :
    r.findBlockForKey entry.firstKey = some idx := by
  obtain ⟨hidx, rfl⟩ := List.getElem?_eq_some_iff.mp hentry
  set p : ℕ → Bool := fun i =>
    (r.index[i]?).any fun e => (compare e.firstKey r.index[idx].firstKey).isLE with hp
  have hiff : ∀ i, p i ↔ i ≤ idx := by
    intro i
    rcases Nat.lt_or_ge i r.index.length with hi | hi
    · simp only [hp, List.getElem?_eq_getElem hi, Option.any_some]
      rcases Nat.lt_trichotomy i idx with hlt | rfl | hgt
      · have hcmp := List.pairwise_iff_getElem.mp hsorted i idx hi hidx hlt
        exact iff_of_true (by rw [hcmp]; rfl) hlt.le
      · exact iff_of_true (by simp) le_rfl
      · have hcmp := Std.OrientedCmp.gt_of_lt
          (List.pairwise_iff_getElem.mp hsorted idx i hidx hi hgt)
        exact iff_of_false (by simp [hcmp]) (not_le.mpr hgt)
    · exact iff_of_false (by simp [hp, List.getElem?_eq_none hi]) (by omega)
  have hspec := @partitionPoint_spec p
    (fun i j hij hj => (hiff i).mpr (hij.trans ((hiff j).mp hj))) r.index.length 0 r.index.length
    (by omega)
    (Nat.zero_le _) (fun i hi => absurd hi (Nat.not_lt_zero i)) (fun i hi => by
      rw [hiff]
      omega)
  have hne : r.index ≠ [] := List.ne_nil_of_length_pos (by omega)
  have hpoint : partitionPoint p r.index.length 0 r.index.length = idx + 1 := by
    have hlow := hspec.1
    have hhigh := hspec.2 idx
    have hnext : ¬ idx + 1 < partitionPoint p r.index.length 0 r.index.length := by
      intro hlt
      have := (hiff _).mp (hlow _ hlt)
      omega
    have hself : ¬ partitionPoint p r.index.length 0 r.index.length ≤ idx :=
      fun hle => hhigh hle ((hiff idx).mpr le_rfl)
    omega
  rw [findBlockForKey, if_neg hne]
  simp only [← hp, hpoint]

theorem blocksFit_of_safe (hindex : r.index.length < 2 ^ 63)
    (hsorted : Sorted RunIndexEntry.firstKey r.index) (h : ∀ key, Safe (r.getRun key)) :
    r.BlocksFit := by
  intro idx bytes hbytes
  by_contra hfits
  have hentry : ∃ entry, r.index[idx]? = some entry := by
    rw [blockBytes] at hbytes
    rcases hentry : r.index[idx]? with _ | entry
    · rw [hentry] at hbytes
      cases hbytes
    · exact ⟨entry, rfl⟩
  obtain ⟨entry, hentry⟩ := hentry
  have hsafe := h entry.firstKey
  rw [getRun_eq hindex, findBlockForKey_firstKey hsorted hentry, Option.elim_some,
    readBlockEntriesRun_eq, hbytes] at hsafe
  change Safe (decodeDataBlockRun bytes >>= _) at hsafe
  rw [decodeDataBlockRun_of_not_fits hfits] at hsafe
  exact not_safe_fault _ hsafe

theorem checkKey_eq_ok {what : String} {lastKey : Option Bytes} {key : Bytes}
    (h : checkKey what lastKey key = .ok ()) : Follows lastKey key := by
  rintro last hlast
  obtain rfl := Option.mem_def.mp hlast
  rw [checkKey] at h
  split_ifs at h with hle
  rw [Ordering.isLE_iff_ne_gt, not_not] at hle
  exact Std.OrientedCmp.lt_of_gt hle

/-- What the index decoder accepts is as long as it counts, with keys that increase. -/
theorem decodeIndexEntries_eq_ok {count : ℕ} {lastKey : Option Bytes} {rest rest' : Bytes}
    (h : decodeIndexEntries count lastKey rest = .ok (index, rest')) :
    index.length = count ∧ Sorted RunIndexEntry.firstKey index ∧
      ∀ e ∈ index, Follows lastKey e.firstKey := by
  induction count generalizing lastKey rest index with
  | zero =>
    cases h
    exact ⟨rfl, List.Pairwise.nil, fun e he => absurd he List.not_mem_nil⟩
  | succ count ih =>
    rw [decodeIndexEntries] at h
    obtain ⟨⟨keyLen, rest₁⟩, _, h⟩ := bind_eq_ok h
    dsimp only at h
    split_ifs at h
    obtain ⟨_, hkey, h⟩ := bind_eq_ok h
    obtain ⟨⟨more, rest₂⟩, hmore, h⟩ := bind_eq_ok h
    cases h
    obtain ⟨hlength, hsorted, hfollows⟩ := ih hmore
    refine ⟨by rw [List.length_cons, hlength], List.pairwise_cons.mpr ⟨?_, hsorted⟩, ?_⟩
    · exact fun e he => hfollows e he _ rfl
    · rintro e (_ | ⟨_, he⟩)
      · exact checkKey_eq_ok hkey
      · intro last hlast
        exact Std.TransCmp.lt_trans (checkKey_eq_ok hkey last hlast) (hfollows e he _ rfl)

/-- The counts and key lengths of the index block fit. -/
def OpenFits (file : Bytes) : Prop :=
  ∀ footer block, indexBlock file = .ok (footer, block) → IndexFits block

theorem openRun_of_fits (h : OpenFits file) : openRun file = lift (RunReader.open file) := by
  rw [openRun_eq, open_eq]
  rcases hblock : indexBlock file with e | ⟨footer, block⟩
  · rfl
  · simp only [bind, Except.bind, lift_ok, decodeIndexBlockRun_of_fits (h _ _ hblock)]
    rcases decodeIndexBlock block with e | index
    · rfl
    · rfl

theorem not_safe_openRun (h : ¬ OpenFits file) : ¬ Safe (openRun file) := by
  rw [OpenFits] at h
  push Not at h
  obtain ⟨footer, block, hblock, hfits⟩ := h
  obtain ⟨fault, hfault, _⟩ := decodeIndexBlockRun_of_not_fits hfits
  rw [openRun_eq, hblock]
  simp only [bind, Except.bind, lift_ok, hfault]
  exact not_safe_fault fault

theorem index_of_open (hfits : OpenFits file) (h : RunReader.open file = .ok r) :
    r.index.length < 2 ^ 63 ∧ Sorted RunIndexEntry.firstKey r.index := by
  rw [open_eq] at h
  obtain ⟨⟨footer, block⟩, hblock, h⟩ := bind_eq_ok h
  obtain ⟨index, hindex, h⟩ := bind_eq_ok h
  rw [checkIndex] at h
  split_ifs at h
  cases h
  rw [decodeIndexBlock] at hindex
  obtain ⟨⟨count, rest⟩, hheader, hindex⟩ := bind_eq_ok hindex
  obtain ⟨⟨entries, rest'⟩, hentries, hindex⟩ := bind_eq_ok hindex
  dsimp only at hindex
  split_ifs at hindex
  cases hindex
  obtain ⟨hlength, hsorted, _⟩ := decodeIndexEntries_eq_ok hentries
  refine ⟨?_, hsorted⟩
  have hcount := (hfits _ _ hblock _ _ hheader).1
  rw [runIndexEntrySize, isizeMax] at hcount
  change index.length < 2 ^ 63
  omega

end Files
end RunReader

section Safety
variable {file : Bytes}
open RunReader

/-- Opening a file, reading all of it and getting any key come to an end of their own. -/
def FileSafe (file : Bytes) : Prop :=
  Safe (openRun file) ∧ ∀ r, openRun file = .ok r → Safe r.readAllRun ∧ ∀ key, Safe (r.getRun key)

/-- The counts and key lengths of a file fit: those of its index block, and those of the data
blocks that the index names. -/
def FileFits (file : Bytes) : Prop :=
  OpenFits file ∧ ∀ r, RunReader.open file = .ok r → r.BlocksFit

theorem fileSafe_iff (file : Bytes) : FileSafe file ↔ FileFits file := by
  by_cases hopen : OpenFits file
  swap
  · exact iff_of_false (fun h => not_safe_openRun hopen h.1) fun h => hopen h.1
  have hrun := openRun_of_fits hopen
  constructor
  · rintro ⟨_, hread⟩
    refine ⟨hopen, fun r hr => ?_⟩
    rw [hr] at hrun
    obtain ⟨hindex, hsorted⟩ := index_of_open hopen hr
    exact blocksFit_of_safe hindex hsorted (hread r hrun).2
  · rintro ⟨_, hblocks⟩
    refine ⟨hrun ▸ safe_lift _, fun r hr => ?_⟩
    rw [hrun] at hr
    rcases hok : RunReader.open file with e | r'
    · rw [hok] at hr
      cases hr
    · rw [hok] at hr
      cases hr
      obtain ⟨hindex, _⟩ := index_of_open hopen hok
      refine ⟨?_, safe_getRun hindex (hblocks r hok)⟩
      rw [readAllRun, readBlocksRun_of_fits (hblocks r hok)]
      exact safe_lift _

end Safety

end SkeinDB.Runs
