import SkeinDB.Codec.Leb128

/-!
# Byte-level primitives shared by every on-disk format

`skeindb-core/src/lib.rs`: the VarU integers, the CRC32C checksum, the
little-endian field readers and the value kinds.
-/
namespace SkeinDB.Format
open SkeinDB.Codec

/-- A computation that succeeds has succeeded in its first part. -/
theorem bind_eq_ok {ε α β : Type} {x : Except ε α} {f : α → Except ε β} {b : β}
    (h : x >>= f = .ok b) : ∃ a, x = .ok a ∧ f a = .ok b := by
  cases x with
  | error e => cases h
  | ok a => exact ⟨a, rfl, h⟩

/-- `[u8; n]`. -/
abbrev ByteArr (n : ℕ) := {bytes : Bytes // bytes.length = n}

/-- `copy_from_slice(&bytes[start..start + n])`. -/
def ByteArr.slice (n start : ℕ) (bytes : Bytes) (h : start + n ≤ bytes.length) : ByteArr n :=
  ⟨(bytes.drop start).take n, by
    rw [List.length_take, List.length_drop]
    omega⟩

theorem ByteArr.slice_append {n start : ℕ} {bytes : Bytes} (arr : ByteArr n) (front rest : Bytes)
    (hbytes : bytes = front ++ (arr.val ++ rest)) (hstart : front.length = start)
    (h : start + n ≤ bytes.length) : ByteArr.slice n start bytes h = arr := by
  subst hbytes hstart
  apply Subtype.ext
  change ((front ++ (arr.val ++ rest)).drop front.length).take n = arr.val
  rw [List.drop_left, List.take_left' arr.property]

inductive CoreError
  | unexpectedEof
  | invalidVarint
  deriving DecidableEq, Repr

inductive FormatError
  | unexpectedEof
  | invalidFileHeaderMagic
  | invalidFileHeaderLength (len : UInt16)
  | unsupportedFileFormatVersion (version : UInt32)
  | unsupportedEndian (flag : UInt8)
  | unknownFileKind (kind : UInt8)
  | fileHeaderCrcMismatch (expected actual : UInt32)
  | recordFrameTooLarge (len : ℕ)
  | recordFrameCrcMismatch (expected actual : UInt32)
  deriving DecidableEq, Repr

/-- Files are limited to signed 64-bit offsets; a file may be missing; an exact read may hit
the end of the file; compressed data may not decompress. -/
inductive IoError
  | fileTooLarge
  | notFound
  | unexpectedEof
  | invalidCompression
  deriving DecidableEq, Repr

/-- Write at the end of a file. -/
def fileAppend (file data : Bytes) : Except IoError Bytes :=
  if file.length + data.length < 2 ^ 63 then .ok (file ++ data) else .error .fileTooLarge

/-- `saturating_add` of 64-bit counters and offsets. -/
def saturatingAdd (a b : ℕ) : ℕ := min (a + b) (2 ^ 64 - 1)

/-- `encode_varu`: a `u64` has at most ten 7-bit groups. -/
def encodeVaru (value : UInt64) : Bytes := Leb128.encode 10 value.toNat

/-- `decode_varu`: at most ten rounds over a `u64` accumulator; returns the value and the
rest of the input. -/
def decodeVaru (input : Bytes) : Except CoreError (UInt64 × Bytes) :=
  match Leb128.decode 64 10 input with
  | .ok (value, rest) => .ok (UInt64.ofNat value, rest)
  | .error .eof => .error .unexpectedEof
  | .error .overlong => .error .invalidVarint

theorem decodeVaru_encodeVaru (value : UInt64) (rest : Bytes) :
    decodeVaru (encodeVaru value ++ rest) = .ok (value, rest) := by
  have hlt : value.toNat < 2 ^ 64 := value.toNat_lt
  have h := Leb128.decode_encode 64 10 value.toNat rest (lt_trans hlt (by norm_num)) hlt (by norm_num)
  rw [decodeVaru, encodeVaru, h]
  simp

theorem decodeVaru_local : Reader.Local decodeVaru := by
  intro input value rest more h
  unfold decodeVaru at h ⊢
  rcases hdecode : Leb128.decode 64 10 input with e | ⟨n, rest'⟩
  · rw [hdecode] at h
    cases e <;> cases h
  · rw [hdecode] at h
    cases h
    rw [Leb128.decode, Leb128.decodeLoop_local _ _ _ _ _ _ _ more hdecode]

/-- The payload of ten groups fits in a `u64` exactly when the tenth has no bit but the lowest. -/
theorem payloadSum_lt_iff {read : Bytes} (h : read.length ≤ 10) :
    Leb128.payloadSum read < 2 ^ 64 ↔ ∀ b, read[9]? = some b → b.toNat % 128 < 2 := by
  rcases Nat.lt_or_ge 9 read.length with hten | hshort
  · have hsplit : read = read.take 9 ++ [read[9]] := by
      rw [List.take_append_getElem hten, List.take_of_length_le h]
    have hfirst := Leb128.payloadSum_lt (read.take 9)
    have hlength : (read.take 9).length = 9 := List.length_take_of_le hten.le
    have hsum : Leb128.payloadSum read =
        Leb128.payloadSum (read.take 9) + 2 ^ 63 * (read[9].toNat % 128) := by
      nth_rewrite 1 [hsplit]
      rw [Leb128.payloadSum_append, hlength, Leb128.payloadSum_cons]
      simp [Leb128.payloadSum]
    rw [hlength] at hfirst
    rw [hsum, List.getElem?_eq_getElem hten]
    constructor
    · rintro hlt b ⟨⟩
      omega
    · intro hb
      have := hb _ rfl
      omega
  · have hlt : Leb128.payloadSum read < 2 ^ 63 :=
      (Leb128.payloadSum_lt read).trans_le (Nat.pow_le_pow_right (by norm_num) (by omega))
    rw [List.getElem?_eq_none hshort]
    exact iff_of_true (hlt.trans (by norm_num)) fun b hb => by cases hb

/-- A VarU is read back whatever follows it, and what a decoder accepts is the number of the
payloads exactly when no tenth byte has a bit that a `u64` has no place for. -/
theorem varint_exact (written : UInt64) (after input : Bytes) :
    decodeVaru (encodeVaru written ++ after) = .ok (written, after) ∧
    ∀ (rest : Bytes) (value : UInt64), decodeVaru input = .ok (value, rest) →
      ∃ read, input = read ++ rest ∧ (value.toNat = Leb128.payloadSum read ↔
        ∀ b, read[9]? = some b → b.toNat % 128 < 2) := by
  refine ⟨decodeVaru_encodeVaru written after, fun rest value h => ?_⟩
  unfold decodeVaru at h
  rcases hdecode : Leb128.decode 64 10 input with e | ⟨n, rest'⟩
  · rw [hdecode] at h
    cases e <;> cases h
  · rw [hdecode] at h
    obtain ⟨hvalue, rfl⟩ := Prod.mk.inj (Except.ok.inj h)
    obtain ⟨read, hinput, hlength, hn⟩ :=
      Leb128.decodeLoop_payloads (by norm_num) (by norm_num) hdecode
    refine ⟨read, hinput, ?_⟩
    rw [Nat.zero_add, pow_zero, Nat.one_mul] at hn
    have hlt : n < 2 ^ 64 := hn ▸ Nat.mod_lt _ (by norm_num)
    rw [← payloadSum_lt_iff hlength, ← hvalue, UInt64.toNat_ofNat_of_lt' hlt, hn]
    exact ⟨fun hexact => hexact ▸ Nat.mod_lt _ (by norm_num), Nat.mod_eq_of_lt⟩

/-- Ten bytes whose payload is 2 ^ 64 are read as 0. -/
theorem varint_drops_bits :
    decodeVaru (List.replicate 9 0x80 ++ [2]) = .ok (0, []) ∧
      Leb128.payloadSum (List.replicate 9 0x80 ++ [2]) = 2 ^ 64 := by
  decide +kernel

theorem encodeVaru_length_le (value : UInt64) : (encodeVaru value).length ≤ 10 :=
  Leb128.encode_length_le 10 value.toNat

/-- A length that fits in a `u64`. -/
theorem toNat_ofNat_of_lt {n : ℕ} (h : n < 2 ^ 64) : (UInt64.ofNat n).toNat = n :=
  UInt64.toNat_ofNat_of_lt' h

/-- The length of a byte string in front of it. -/
def lenPrefixed (bytes : Bytes) : Bytes := encodeVaru (UInt64.ofNat bytes.length) ++ bytes

theorem decodeVaru_lenPrefixed (bytes rest : Bytes) :
    decodeVaru (lenPrefixed bytes ++ rest) = .ok (UInt64.ofNat bytes.length, bytes ++ rest) := by
  rw [lenPrefixed, List.append_assoc, decodeVaru_encodeVaru]

theorem lenPrefixed_pos (bytes : Bytes) : 0 < (lenPrefixed bytes).length := by
  have hne := Leb128.encode_ne_nil 10 (UInt64.ofNat bytes.length).toNat (by norm_num)
  have hpos := List.length_pos_of_ne_nil hne
  rw [lenPrefixed, encodeVaru, List.length_append]
  omega

/-- No element is encoded as nothing. -/
theorem length_le_flatMap {α : Type*} {f : α → Bytes} (hf : ∀ a, 0 < (f a).length) (as : List α) :
    as.length ≤ (as.flatMap f).length := by
  induction as with
  | nil => simp
  | cons a as ih =>
    have := hf a
    rw [List.flatMap_cons, List.length_append, List.length_cons]
    omega

/-- One bit of the reflected CRC32C shift register, polynomial `0x1EDC6F41`. -/
def crc32cBit (crc : UInt32) : UInt32 :=
  if crc &&& 1 = 1 then (crc >>> 1) ^^^ 0x82F63B78 else crc >>> 1

def crc32cByte (crc : UInt32) (b : UInt8) : UInt32 :=
  Nat.iterate crc32cBit 8 (crc ^^^ b.toUInt32)

/-- CRC32C of a byte slice. -/
def crc32c (data : Bytes) : UInt32 := data.foldl crc32cByte 0xFFFFFFFF ^^^ 0xFFFFFFFF

/-- The check value of the CRC32C definition, on the ASCII digits `1` to `9`. -/
example : crc32c [49, 50, 51, 52, 53, 54, 55, 56, 57] = 0xE3069283 := by
  decide +kernel

/-- The `k` bytes at `offset`, little-endian, or `UnexpectedEof` when they are not there. -/
def leAt (k : ℕ) (bytes : Bytes) (offset : ℕ) : Except FormatError ℕ :=
  if bytes.length - offset < k then .error .unexpectedEof
  else .ok (leNat ((bytes.drop offset).take k))

def u16Le (bytes : Bytes) (offset : ℕ) : Except FormatError UInt16 :=
  (leAt 2 bytes offset).map UInt16.ofNat

def u32Le (bytes : Bytes) (offset : ℕ) : Except FormatError UInt32 :=
  (leAt 4 bytes offset).map UInt32.ofNat

def u64Le (bytes : Bytes) (offset : ℕ) : Except FormatError UInt64 :=
  (leAt 8 bytes offset).map UInt64.ofNat

/-- A field is read back from behind any bytes of its offset's length. -/
theorem leAt_append {k n offset : ℕ} {bytes : Bytes} (front rest : Bytes)
    (hbytes : bytes = front ++ (leBytes k n ++ rest)) (hoffset : front.length = offset)
    (h : n < 256 ^ k) : leAt k bytes offset = .ok n := by
  subst hbytes hoffset
  have hlen : ¬ (front ++ (leBytes k n ++ rest)).length - front.length < k := by
    simp only [List.length_append, leBytes_length]
    omega
  rw [leAt, if_neg hlen, List.drop_left, List.take_left' (leBytes_length k n), leNat_leBytes k n h]

theorem u16Le_append {v : UInt16} {offset : ℕ} {bytes : Bytes} (front rest : Bytes)
    (hbytes : bytes = front ++ (leBytes 2 v.toNat ++ rest)) (hoffset : front.length = offset) :
    u16Le bytes offset = .ok v := by
  rw [u16Le, leAt_append front rest hbytes hoffset (by have := v.toNat_lt; omega)]
  simp [Except.map]

theorem u32Le_append {v : UInt32} {offset : ℕ} {bytes : Bytes} (front rest : Bytes)
    (hbytes : bytes = front ++ (leBytes 4 v.toNat ++ rest)) (hoffset : front.length = offset) :
    u32Le bytes offset = .ok v := by
  rw [u32Le, leAt_append front rest hbytes hoffset (by have := v.toNat_lt; omega)]
  simp [Except.map]

theorem u64Le_append {v : UInt64} {offset : ℕ} {bytes : Bytes} (front rest : Bytes)
    (hbytes : bytes = front ++ (leBytes 8 v.toNat ++ rest)) (hoffset : front.length = offset) :
    u64Le bytes offset = .ok v := by
  rw [u64Le, leAt_append front rest hbytes hoffset (by have := v.toNat_lt; omega)]
  simp [Except.map]

/-- A field that was read is stored at its offset. -/
theorem leAt_eq_ok {k n offset : ℕ} {bytes : Bytes} (h : leAt k bytes offset = .ok n) :
    (bytes.drop offset).take k = leBytes k n ∧ n < 256 ^ k := by
  unfold leAt at h
  split at h
  · cases h
  · rename_i hlen
    cases h
    have hk : ((bytes.drop offset).take k).length = k := by
      rw [List.length_take, List.length_drop]
      omega
    have hle := leBytes_leNat ((bytes.drop offset).take k)
    have hlt := leNat_lt ((bytes.drop offset).take k)
    rw [hk] at hle hlt
    exact ⟨hle.symm, hlt⟩

theorem u32Le_eq_ok {v : UInt32} {offset : ℕ} {bytes : Bytes} (h : u32Le bytes offset = .ok v) :
    (bytes.drop offset).take 4 = leBytes 4 v.toNat := by
  unfold u32Le at h
  cases hn : leAt 4 bytes offset with
  | error e => simp [hn, Except.map] at h
  | ok n =>
    obtain ⟨hbytes, hlt⟩ := leAt_eq_ok hn
    have hv : v = UInt32.ofNat n := by simpa [hn, Except.map] using h.symm
    rw [hbytes, hv, UInt32.toNat_ofNat', Nat.mod_eq_of_lt (by simpa using hlt)]

/-- Value kinds for ValueStore entries. -/
inductive ValueKind
  | cell
  | group
  | blobChunk
  | blobManifest
  | delta
  | embedding
  deriving DecidableEq, Repr

/-- `kind as u8`, part of the on-disk format. -/
def ValueKind.toU8 : ValueKind → UInt8
  | .cell => 1
  | .group => 2
  | .blobChunk => 3
  | .blobManifest => 4
  | .delta => 5
  | .embedding => 6

end SkeinDB.Format
