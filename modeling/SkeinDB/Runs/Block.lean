import SkeinDB.Format.FileHeader
import SkeinDB.Search.SortedBlocks

/-!
# Run blocks

`skeindb-core/src/run.rs`: data blocks of entries, the index block of first keys and
offsets, and the footer of a sorted run file. Byte strings compare lexicographically.
-/
namespace SkeinDB.Runs
open SkeinDB.Codec SkeinDB.Format SkeinDB.Search

/-- `InvalidBlock` carries the source's own text. -/
inductive RunError
  | badHeader
  | badFooter
  | invalidBlockType (blockType : UInt8)
  | unsupportedBlockVersion (version : UInt8)
  | invalidBlock (what : String)
  | keysNotStrictlyIncreasing
  | writerFinished
  | invalidRunFileName
  | footerCrcMismatch (expected actual : UInt32)
  | format (err : FormatError)
  | io (err : IoError)
  | core (err : CoreError)
  deriving DecidableEq, Repr

structure RunEntry where
  key : Bytes
  value : Bytes
  deriving DecidableEq, Repr

structure RunIndexEntry where
  firstKey : Bytes
  blockOffset : ℕ
  deriving DecidableEq, Repr

structure RunFooter where
  indexOffset : ℕ
  fileCrc32c : UInt32
  deriving DecidableEq, Repr

def dataBlockType : UInt8 := 0x40

def indexBlockType : UInt8 := 0x41

def blockVersion : UInt8 := 1

/-- `b"SKNRUN\0\x01"` -/
def runFooterMagic : Bytes := [0x53, 0x4B, 0x4E, 0x52, 0x55, 0x4E, 0x00, 0x01]

def runFooterLen : ℕ := 20

def RunFooter.encode (footer : RunFooter) : Bytes :=
  runFooterMagic ++ (leBytes 8 footer.indexOffset ++ leBytes 4 footer.fileCrc32c.toNat)

def RunFooter.decode (bytes : Bytes) : Except RunError RunFooter :=
  if bytes.length < runFooterLen then .error .badFooter
  else if bytes.take 8 ≠ runFooterMagic then .error .badFooter
  else .ok ⟨leNat ((bytes.drop 8).take 8), UInt32.ofNat (leNat ((bytes.drop 16).take 4))⟩

def RunEntry.encode (entry : RunEntry) : Bytes := lenPrefixed entry.key ++ lenPrefixed entry.value

def encodeDataBlock (entries : List RunEntry) : Bytes :=
  [dataBlockType, blockVersion] ++
    (encodeVaru (UInt64.ofNat entries.length) ++ entries.flatMap RunEntry.encode)

def RunIndexEntry.encode (entry : RunIndexEntry) : Bytes :=
  lenPrefixed entry.firstKey ++ leBytes 8 entry.blockOffset

def encodeIndexBlock (index : List RunIndexEntry) : Bytes :=
  [indexBlockType, blockVersion] ++
    (encodeVaru (UInt64.ofNat index.length) ++ index.flatMap RunIndexEntry.encode)

/-- A length and that many bytes, with the source's text when they are not there. -/
def decodeBytes (what : String) (rest : Bytes) : Except RunError (Bytes × Bytes) := do
  let (len, rest) ← (decodeVaru rest).mapError .core
  if rest.length < len.toNat then .error (.invalidBlock what)
  else .ok (rest.take len.toNat, rest.drop len.toNat)

/-- The check that a key is above the one before it. -/
def checkKey (what : String) (lastKey : Option Bytes) (key : Bytes) : Except RunError Unit :=
  match lastKey with
  | none => .ok ()
  | some last => if (compare key last).isLE then .error (.invalidBlock what) else .ok ()

def decodeEntries : ℕ → Option Bytes → Bytes → Except RunError (List RunEntry × Bytes)
  | 0, _, rest => .ok ([], rest)
  | count + 1, lastKey, rest => do
    let (key, rest) ← decodeBytes "data block key exceeds remaining bytes" rest
    let (value, rest) ← decodeBytes "data block value exceeds remaining bytes" rest
    checkKey "data block keys must be strictly increasing" lastKey key
    let (entries, rest) ← decodeEntries count (some key) rest
    .ok (⟨key, value⟩ :: entries, rest)

/-- The type and version of a block, and the count and bytes behind them. -/
def decodeBlockHeader (blockType : UInt8) (short : String) (bytes : Bytes) :
    Except RunError (UInt64 × Bytes) :=
  if bytes.length < 2 then .error (.invalidBlock short)
  else if bytes.getD 0 0 ≠ blockType then .error (.invalidBlockType (bytes.getD 0 0))
  else if bytes.getD 1 0 ≠ blockVersion then
    .error (.unsupportedBlockVersion (bytes.getD 1 0))
  else (decodeVaru (bytes.drop 2)).mapError .core

def decodeDataBlock (bytes : Bytes) : Except RunError (List RunEntry) := do
  let (count, rest) ← decodeBlockHeader dataBlockType "data block is shorter than header" bytes
  let (entries, rest) ← decodeEntries count.toNat none rest
  if rest ≠ [] then .error (.invalidBlock "trailing bytes after data block") else .ok entries

/-- The first key and the offset of a block are checked to be there together. -/
def decodeIndexEntries : ℕ → Option Bytes → Bytes → Except RunError (List RunIndexEntry × Bytes)
  | 0, _, rest => .ok ([], rest)
  | count + 1, lastKey, rest => do
    let (keyLen, rest) ← (decodeVaru rest).mapError .core
    if rest.length < keyLen.toNat + 8 then
      .error (.invalidBlock "index block entry exceeds remaining bytes")
    else
      let firstKey := rest.take keyLen.toNat
      let rest := rest.drop keyLen.toNat
      checkKey "index block first keys must be strictly increasing" lastKey firstKey
      let (index, rest') ← decodeIndexEntries count (some firstKey) (rest.drop 8)
      .ok (⟨firstKey, leNat (rest.take 8)⟩ :: index, rest')

def decodeIndexBlock (bytes : Bytes) : Except RunError (List RunIndexEntry) := do
  let (count, rest) ← decodeBlockHeader indexBlockType "index block is shorter than header" bytes
  let (index, rest) ← decodeIndexEntries count.toNat none rest
  if rest ≠ [] then .error (.invalidBlock "trailing bytes after index block") else .ok index

section RoundTrip

theorem decodeBytes_lenPrefixed {bytes : Bytes} (what : String) (rest : Bytes)
    (h : bytes.length < 2 ^ 64) :
    decodeBytes what (lenPrefixed bytes ++ rest) = .ok (bytes, rest) := by
  simp only [decodeBytes, decodeVaru_lenPrefixed, Except.mapError, bind, Except.bind,
    toNat_ofNat_of_lt h]
  rw [if_neg (by simp), List.take_left' rfl, List.drop_left' rfl]

/-- The last key is below every key that follows. -/
def Follows (lastKey : Option Bytes) (key : Bytes) : Prop :=
  ∀ last ∈ lastKey, compare last key = .lt

theorem follows_none (key : Bytes) : Follows none key := by
  intro last hlast
  cases hlast

theorem checkKey_ok {lastKey : Option Bytes} {key : Bytes} (what : String)
    (h : Follows lastKey key) : checkKey what lastKey key = .ok () := by
  cases lastKey with
  | none => rfl
  | some last =>
    have hgt : compare key last = .gt := Std.OrientedCmp.gt_of_lt (h last rfl)
    simp [checkKey, hgt]

theorem decodeEntries_encode {entries : List RunEntry} {lastKey : Option Bytes} (rest : Bytes)
    (hs : Sorted RunEntry.key entries) (hlast : ∀ e ∈ entries, Follows lastKey e.key)
    (hlen : (entries.flatMap RunEntry.encode).length < 2 ^ 64) :
    decodeEntries entries.length lastKey (entries.flatMap RunEntry.encode ++ rest) =
      .ok (entries, rest) := by
  induction entries generalizing lastKey with
  | nil => rfl
  | cons e es ih =>
    rw [Sorted, List.pairwise_cons] at hs
    simp only [List.flatMap_cons, List.length_append, RunEntry.encode, lenPrefixed] at hlen
    simp only [List.length_cons, decodeEntries, List.flatMap_cons, List.append_assoc,
      RunEntry.encode]
    rw [decodeBytes_lenPrefixed _ _ (by omega)]
    simp only [bind, Except.bind]
    rw [decodeBytes_lenPrefixed _ _ (by omega)]
    simp only [checkKey_ok _ (hlast e (by simp))]
    have htail : ∀ x ∈ es, Follows (some e.key) x.key := by
      intro x hx last hlast
      obtain rfl := Option.some.inj hlast
      exact hs.1 x hx
    rw [ih hs.2 htail (by omega)]

theorem decodeBlockHeader_encode (blockType : UInt8) (short : String) (count : UInt64)
    (rest : Bytes) : decodeBlockHeader blockType short
      ([blockType, blockVersion] ++ (encodeVaru count ++ rest)) = .ok (count, rest) := by
  simp [decodeBlockHeader, decodeVaru_encodeVaru, Except.mapError]

theorem RunEntry.encode_pos (entry : RunEntry) : 0 < entry.encode.length := by
  have := lenPrefixed_pos entry.key
  rw [RunEntry.encode, List.length_append]
  omega

theorem RunIndexEntry.encode_pos (entry : RunIndexEntry) : 0 < entry.encode.length := by
  simp [RunIndexEntry.encode]

/-- A block of sorted entries decodes to them. -/
theorem decodeDataBlock_encode {entries : List RunEntry} (hs : Sorted RunEntry.key entries)
    (hlen : (encodeDataBlock entries).length < 2 ^ 64) :
    decodeDataBlock (encodeDataBlock entries) = .ok entries := by
  simp only [encodeDataBlock, List.length_append] at hlen
  have hcount := length_le_flatMap RunEntry.encode_pos entries
  have hloop := decodeEntries_encode [] hs (fun e _ => follows_none e.key) (by omega)
  rw [List.append_nil] at hloop
  simp only [decodeDataBlock, encodeDataBlock, decodeBlockHeader_encode, bind, Except.bind]
  rw [toNat_ofNat_of_lt (by omega), hloop]
  simp

theorem decodeIndexEntries_encode {index : List RunIndexEntry} {lastKey : Option Bytes}
    (rest : Bytes) (hs : Sorted RunIndexEntry.firstKey index)
    (hlast : ∀ e ∈ index, Follows lastKey e.firstKey)
    (hoffset : ∀ e ∈ index, e.blockOffset < 2 ^ 64)
    (hlen : (index.flatMap RunIndexEntry.encode).length < 2 ^ 64) :
    decodeIndexEntries index.length lastKey (index.flatMap RunIndexEntry.encode ++ rest) =
      .ok (index, rest) := by
  induction index generalizing lastKey with
  | nil => rfl
  | cons e es ih =>
    rw [Sorted, List.pairwise_cons] at hs
    simp only [List.flatMap_cons, List.length_append, RunIndexEntry.encode, lenPrefixed] at hlen
    have hfits : ¬ (e.firstKey ++ (leBytes 8 e.blockOffset ++
        (es.flatMap RunIndexEntry.encode ++ rest))).length < e.firstKey.length + 8 := by
      simp only [List.length_append, leBytes_length]
      omega
    have htail : ∀ x ∈ es, Follows (some e.firstKey) x.firstKey := by
      intro x hx last hlast
      obtain rfl := Option.some.inj hlast
      exact hs.1 x hx
    have hrest := ih hs.2 htail (fun x hx => hoffset x (by simp [hx])) (by omega)
    have hnat := leNat_leBytes 8 e.blockOffset (by have := hoffset e (by simp); omega)
    simp only [List.length_cons, decodeIndexEntries, List.flatMap_cons, List.append_assoc,
      RunIndexEntry.encode, lenPrefixed, decodeVaru_encodeVaru, Except.mapError, bind, Except.bind]
    rw [toNat_ofNat_of_lt (by omega), if_neg hfits, List.take_left' rfl, List.drop_left' rfl]
    simp only [checkKey_ok _ (hlast e (by simp)), List.take_left' (leBytes_length 8 _),
      List.drop_left' (leBytes_length 8 _)]
    rw [hrest, hnat]

theorem decodeIndexBlock_encode {index : List RunIndexEntry}
    (hs : Sorted RunIndexEntry.firstKey index) (hoffset : ∀ e ∈ index, e.blockOffset < 2 ^ 64)
    (hlen : (encodeIndexBlock index).length < 2 ^ 64) :
    decodeIndexBlock (encodeIndexBlock index) = .ok index := by
  simp only [encodeIndexBlock, List.length_append] at hlen
  have hcount := length_le_flatMap RunIndexEntry.encode_pos index
  have hloop := decodeIndexEntries_encode [] hs (fun e _ => follows_none e.firstKey) hoffset
    (by omega)
  rw [List.append_nil] at hloop
  simp only [decodeIndexBlock, encodeIndexBlock, decodeBlockHeader_encode, bind, Except.bind]
  rw [toNat_ofNat_of_lt (by omega), hloop]
  simp

theorem RunFooter.encode_length (footer : RunFooter) : footer.encode.length = runFooterLen := by
  simp [RunFooter.encode, runFooterMagic, runFooterLen]

theorem RunFooter.decode_encode {footer : RunFooter} (h : footer.indexOffset < 2 ^ 64) :
    RunFooter.decode footer.encode = .ok footer := by
  have hmagic : footer.encode.take 8 = runFooterMagic :=
    List.take_left' (by simp [runFooterMagic])
  have hindex : leNat ((footer.encode.drop 8).take 8) = footer.indexOffset := by
    rw [RunFooter.encode, List.drop_left' (by simp [runFooterMagic]),
      List.take_left' (leBytes_length 8 _), leNat_leBytes 8 _ (by omega)]
  have hcrc : leNat ((footer.encode.drop 16).take 4) = footer.fileCrc32c.toNat := by
    rw [RunFooter.encode, ← List.append_assoc, List.drop_left' (by simp [runFooterMagic]),
      List.take_of_length_le (by simp),
      leNat_leBytes 4 _ (by have := footer.fileCrc32c.toNat_lt; omega)]
  rw [RunFooter.decode, if_neg (by rw [RunFooter.encode_length]; omega), if_neg (by simp [hmagic]),
    hindex, hcrc]
  simp

end RoundTrip

end SkeinDB.Runs
