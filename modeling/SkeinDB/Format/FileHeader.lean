import SkeinDB.Format.RecordFrame

/-!
# File headers

`skeindb-core/src/lib.rs`: every file starts with a 64-byte header: magic, file
kind, endian flag, header length, format version, file id, creation time, 32
reserved bytes and the CRC32C of the first 60 bytes.
-/
namespace SkeinDB.Format
open SkeinDB.Codec

def fileHeaderLen : ℕ := 64

/-- `b"SKNDB\0\x01\0"` -/
def fileHeaderMagic : Bytes := [0x53, 0x4B, 0x4E, 0x44, 0x42, 0x00, 0x01, 0x00]

def fileHeaderEndianLe : UInt8 := 1

def fileHeaderFormatVersion : UInt32 := 1

inductive FileKind
  | wal
  | rowSeg
  | valSeg
  | run
  | manifest
  deriving DecidableEq, Repr

def FileKind.toU8 : FileKind → UInt8
  | .wal => 1
  | .rowSeg => 2
  | .valSeg => 3
  | .run => 4
  | .manifest => 5

def FileKind.tryFrom (value : UInt8) : Except FormatError FileKind :=
  if value = 1 then .ok .wal
  else if value = 2 then .ok .rowSeg
  else if value = 3 then .ok .valSeg
  else if value = 4 then .ok .run
  else if value = 5 then .ok .manifest
  else .error (.unknownFileKind value)

theorem FileKind.tryFrom_toU8 (kind : FileKind) : FileKind.tryFrom kind.toU8 = .ok kind := by
  cases kind <;> rfl

structure FileHeader where
  fileKind : FileKind
  formatVer : UInt32
  fileId : UInt32
  createdUnixS : UInt64
  reserved : ByteArr 32
  deriving DecidableEq

namespace FileHeader

def new (fileKind : FileKind) (fileId : UInt32) (createdUnixS : UInt64) : FileHeader where
  fileKind := fileKind
  formatVer := fileHeaderFormatVersion
  fileId := fileId
  createdUnixS := createdUnixS
  reserved := ⟨List.replicate 32 0, by simp⟩

/-- The 60 bytes in front of the header's checksum. -/
def encodeBody (h : FileHeader) : Bytes :=
  fileHeaderMagic ++ [h.fileKind.toU8, fileHeaderEndianLe] ++ leBytes 2 fileHeaderLen ++
    leBytes 4 h.formatVer.toNat ++ leBytes 4 h.fileId.toNat ++ leBytes 8 h.createdUnixS.toNat ++
    h.reserved.val

def encode (h : FileHeader) : Bytes := h.encodeBody ++ leBytes 4 (crc32c h.encodeBody).toNat

def decode (bytes : Bytes) : Except FormatError FileHeader :=
  if hshort : bytes.length < fileHeaderLen then .error .unexpectedEof
  else
    let header := bytes.take fileHeaderLen
    if header.take 8 ≠ fileHeaderMagic then .error .invalidFileHeaderMagic
    else do
      let fileKind ← FileKind.tryFrom (header.getD 8 0)
      let endian := header.getD 9 0
      if endian ≠ fileHeaderEndianLe then .error (.unsupportedEndian endian)
      else
        let headerLen ← u16Le header 10
        if headerLen.toNat ≠ fileHeaderLen then .error (.invalidFileHeaderLength headerLen)
        else
          let formatVer ← u32Le header 12
          if formatVer ≠ fileHeaderFormatVersion then
            .error (.unsupportedFileFormatVersion formatVer)
          else
            let expectedCrc ← u32Le header 60
            let actualCrc := crc32c (header.take 60)
            if expectedCrc ≠ actualCrc then
              .error (.fileHeaderCrcMismatch expectedCrc actualCrc)
            else
              let fileId ← u32Le header 16
              let createdUnixS ← u64Le header 20
              have hlen : 28 + 32 ≤ header.length := by
                simp only [header, fileHeaderLen, List.length_take] at *
                omega
              .ok ⟨fileKind, formatVer, fileId, createdUnixS, ByteArr.slice 32 28 header hlen⟩

@[simp] theorem encodeBody_length (h : FileHeader) : h.encodeBody.length = 60 := by
  simp [encodeBody, fileHeaderMagic, h.reserved.property]

@[simp] theorem encode_length (h : FileHeader) : h.encode.length = fileHeaderLen := by
  simp [encode, fileHeaderLen]

/-- A header of the current format version decodes to itself, whatever follows it. -/
theorem decode_encode (h : FileHeader) (rest : Bytes)
    (hver : h.formatVer = fileHeaderFormatVersion) : decode (h.encode ++ rest) = .ok h := by
  obtain ⟨fileKind, formatVer, fileId, createdUnixS, ⟨reserved, hreserved⟩⟩ := h
  subst hver
  let h : FileHeader := ⟨fileKind, fileHeaderFormatVersion, fileId, createdUnixS,
    ⟨reserved, hreserved⟩⟩
  have htake : (h.encode ++ rest).take fileHeaderLen = h.encode :=
    List.take_left' (encode_length h)
  have hshort : ¬ (h.encode ++ rest).length < fileHeaderLen := by simp
  have hmagic : h.encode.take 8 = fileHeaderMagic := by
    simp [h, encode, encodeBody, fileHeaderMagic]
  have hkind : h.encode.getD 8 0 = fileKind.toU8 := by
    simp [h, encode, encodeBody, fileHeaderMagic]
  have hendian : h.encode.getD 9 0 = fileHeaderEndianLe := by
    simp [h, encode, encodeBody, fileHeaderMagic]
  -- the fields in file order, each read from behind the ones before it
  let front := fileHeaderMagic ++ [fileKind.toU8, fileHeaderEndianLe]
  let body := front ++ leBytes 2 fileHeaderLen ++ leBytes 4 fileHeaderFormatVersion.toNat
  let afterTime := reserved ++ leBytes 4 (crc32c h.encodeBody).toNat
  let afterId := leBytes 8 createdUnixS.toNat ++ afterTime
  let afterVer := leBytes 4 fileId.toNat ++ afterId
  have hlen : u16Le h.encode 10 = .ok 64 :=
    u16Le_append front (leBytes 4 fileHeaderFormatVersion.toNat ++ afterVer)
      (by simp [h, front, afterVer, afterId, afterTime, encode, encodeBody, fileHeaderLen]) rfl
  have hver : u32Le h.encode 12 = .ok fileHeaderFormatVersion :=
    u32Le_append (front ++ leBytes 2 fileHeaderLen) afterVer
      (by simp [h, front, afterVer, afterId, afterTime, encode, encodeBody]) rfl
  have hid : u32Le h.encode 16 = .ok fileId :=
    u32Le_append body afterId
      (by simp [h, front, body, afterId, afterTime, encode, encodeBody]) rfl
  have htime : u64Le h.encode 20 = .ok createdUnixS :=
    u64Le_append (body ++ leBytes 4 fileId.toNat) afterTime
      (by simp [h, front, body, afterTime, encode, encodeBody]) rfl
  have hcrc : u32Le h.encode 60 = .ok (crc32c h.encodeBody) :=
    u32Le_append h.encodeBody [] (by simp [encode]) (by simp)
  have hbody : h.encode.take 60 = h.encodeBody := List.take_left' (encodeBody_length h)
  have hres (hl : 28 + 32 ≤ h.encode.length) :
      ByteArr.slice 32 28 h.encode hl = ⟨reserved, hreserved⟩ :=
    ByteArr.slice_append _ (body ++ leBytes 4 fileId.toNat ++ leBytes 8 createdUnixS.toNat)
      (leBytes 4 (crc32c h.encodeBody).toNat)
      (by simp [h, front, body, encode, encodeBody]) (by simp [body, front, fileHeaderMagic]) hl
  change decode (h.encode ++ rest) = .ok h
  rw [decode, dif_neg hshort]
  simp only [htake, hmagic, hkind, hendian, hlen, hver, hid, htime, hcrc, hbody, hres,
    FileKind.tryFrom_toU8, bind, Except.bind, ne_eq, not_true_eq_false, if_false]
  rfl

end FileHeader

end SkeinDB.Format
