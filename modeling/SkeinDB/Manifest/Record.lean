import SkeinDB.Format.FileHeader

/-!
# Manifest records and the state they replay to

`skeindb-core/src/manifest.rs`: the record vocabulary of `MANIFEST.log`, its byte
encoding and the file-level state computed from it.
-/
namespace SkeinDB.Manifest
open SkeinDB.Codec SkeinDB.Format

inductive ManifestFileKind
  | wal
  | rowSeg
  | valSeg
  | run
  deriving DecidableEq, Repr

def ManifestFileKind.toU8 : ManifestFileKind → UInt8
  | .wal => 1
  | .rowSeg => 2
  | .valSeg => 3
  | .run => 4

/-- The fields whose range `ManifestRecord::decode` checks. -/
inductive Field
  | fileId
  | level
  | varu
  deriving DecidableEq, Repr

inductive ManifestError
  | badHeader
  | unknownRecordType (recType : UInt8)
  | unknownFileKind (kind : UInt8)
  | fieldOutOfRange (field : Field)
  | format (err : FormatError)
  | io (err : IoError)
  deriving DecidableEq, Repr

def ManifestError.core : CoreError → ManifestError
  | .unexpectedEof => .format .unexpectedEof
  | .invalidVarint => .fieldOutOfRange .varu

def ManifestFileKind.fromU8 (v : UInt8) : Except ManifestError ManifestFileKind :=
  if v = 1 then .ok .wal
  else if v = 2 then .ok .rowSeg
  else if v = 3 then .ok .valSeg
  else if v = 4 then .ok .run
  else .error (.unknownFileKind v)

inductive ManifestRecord
  | addFile (kind : ManifestFileKind) (fileId level : UInt32)
  | removeFile (kind : ManifestFileKind) (fileId : UInt32)
  | setCurrentVersion (version : UInt64)
  | setLastLsn (lsn : UInt64)
  | cleanShutdown (unixS : UInt64)
  deriving DecidableEq, Repr

def tagAddFile : UInt8 := 0x01
def tagRemoveFile : UInt8 := 0x02
def tagSetCurrentVersion : UInt8 := 0x03
def tagSetLastLsn : UInt8 := 0x04
def tagCleanShutdown : UInt8 := 0x05

namespace ManifestRecord

def encode : ManifestRecord → Bytes
  | addFile kind fileId level =>
    [tagAddFile, kind.toU8] ++ encodeVaru fileId.toUInt64 ++ encodeVaru level.toUInt64
  | removeFile kind fileId => [tagRemoveFile, kind.toU8] ++ encodeVaru fileId.toUInt64
  | setCurrentVersion version => [tagSetCurrentVersion] ++ encodeVaru version
  | setLastLsn lsn => [tagSetLastLsn] ++ encodeVaru lsn
  | cleanShutdown unixS => [tagCleanShutdown] ++ encodeVaru unixS

/-- A VarU field and the bytes after it. -/
def varuField (rest : Bytes) : Except ManifestError (UInt64 × Bytes) :=
  (decodeVaru rest).mapError .core

/-- The file kind at the front of the bytes. -/
def kindField (rest : Bytes) : Except ManifestError (ManifestFileKind × Bytes) :=
  match rest with
  | [] => .error (.format .unexpectedEof)
  | b :: rest => (ManifestFileKind.fromU8 b).map (fun kind => (kind, rest))

/-- `u32::try_from` on a decoded field. -/
def u32Field (field : Field) (value : UInt64) : Except ManifestError UInt32 :=
  if value.toNat < 2 ^ 32 then .ok value.toUInt32 else .error (.fieldOutOfRange field)

/-- `ManifestRecord::decode`, which ignores bytes behind the fields of the record. -/
def decode (payload : Bytes) : Except ManifestError ManifestRecord :=
  match payload with
  | [] => .error (.format .unexpectedEof)
  | tag :: rest => do
    if tag = tagAddFile then
      let (kind, rest) ← kindField rest
      let (fileId, rest) ← varuField rest
      let (level, _) ← varuField rest
      let fileId ← u32Field .fileId fileId
      let level ← u32Field .level level
      .ok (addFile kind fileId level)
    else if tag = tagRemoveFile then
      let (kind, rest) ← kindField rest
      let (fileId, _) ← varuField rest
      let fileId ← u32Field .fileId fileId
      .ok (removeFile kind fileId)
    else if tag = tagSetCurrentVersion then
      let (version, _) ← varuField rest
      .ok (setCurrentVersion version)
    else if tag = tagSetLastLsn then
      let (lsn, _) ← varuField rest
      .ok (setLastLsn lsn)
    else if tag = tagCleanShutdown then
      let (unixS, _) ← varuField rest
      .ok (cleanShutdown unixS)
    else .error (.unknownRecordType tag)

theorem kindField_toU8 (kind : ManifestFileKind) (rest : Bytes) :
    kindField (kind.toU8 :: rest) = .ok (kind, rest) := by
  cases kind <;> rfl

theorem varuField_encodeVaru (value : UInt64) (rest : Bytes) :
    varuField (encodeVaru value ++ rest) = .ok (value, rest) := by
  rw [varuField, decodeVaru_encodeVaru]
  rfl

theorem varuField_encodeVaru_nil (value : UInt64) :
    varuField (encodeVaru value) = .ok (value, []) := by
  simpa using varuField_encodeVaru value []

theorem u32Field_toUInt64 (field : Field) (value : UInt32) :
    u32Field field value.toUInt64 = .ok value := by
  have hlt := value.toNat_lt
  rw [u32Field, if_pos (by simpa using hlt)]
  simp

/-- Every record decodes to itself. -/
theorem decode_encode (r : ManifestRecord) : decode r.encode = .ok r := by
  cases r <;>
    simp [encode, decode, tagAddFile, tagRemoveFile, tagSetCurrentVersion, tagSetLastLsn,
      tagCleanShutdown, kindField_toU8, varuField_encodeVaru, varuField_encodeVaru_nil,
      u32Field_toUInt64, bind, Except.bind]

/-- A payload has at most a tag, a kind and two VarU fields. -/
theorem encode_length_le (r : ManifestRecord) : r.encode.length ≤ 22 := by
  cases r with
  | addFile kind fileId level =>
    have h1 := encodeVaru_length_le fileId.toUInt64
    have h2 := encodeVaru_length_le level.toUInt64
    simp only [encode, List.length_append, List.length_cons, List.length_nil]
    omega
  | removeFile kind fileId =>
    have h1 := encodeVaru_length_le fileId.toUInt64
    simp only [encode, List.length_append, List.length_cons, List.length_nil]
    omega
  | setCurrentVersion v | setLastLsn v | cleanShutdown v =>
    have h1 := encodeVaru_length_le v
    simp only [encode, List.length_append, List.length_cons, List.length_nil]
    omega

end ManifestRecord

structure ManifestFileRef where
  kind : ManifestFileKind
  fileId : UInt32
  deriving DecidableEq, Repr

structure ManifestFileEntry where
  fileRef : ManifestFileRef
  level : UInt32
  deriving DecidableEq, Repr

structure ManifestState where
  files : List ManifestFileEntry := []
  currentVersion : UInt64 := 0
  lastLsn : UInt64 := 0
  lastCleanShutdownUnixS : UInt64 := 0
  deriving DecidableEq, Repr

/-- Apply a single record. The most recent add of a file wins for its level. -/
def ManifestState.apply (s : ManifestState) : ManifestRecord → ManifestState
  | .addFile kind fileId level =>
    let fileRef : ManifestFileRef := ⟨kind, fileId⟩
    match s.files.findIdx? (fun e => e.fileRef = fileRef) with
    | some i => { s with files := s.files.modify i (fun e => { e with level := level }) }
    | none => { s with files := s.files ++ [⟨fileRef, level⟩] }
  | .removeFile kind fileId =>
    { s with files := s.files.filter (fun e => e.fileRef ≠ ⟨kind, fileId⟩) }
  | .setCurrentVersion version => { s with currentVersion := version }
  | .setLastLsn lsn => { s with lastLsn := lsn }
  | .cleanShutdown unixS => { s with lastCleanShutdownUnixS := unixS }

def replay (records : List ManifestRecord) : ManifestState :=
  records.foldl ManifestState.apply {}

end SkeinDB.Manifest
