import SkeinDB.Manifest.Record

/-!
# Torn tails of the manifest

`skeindb-core/src/manifest.rs`: `ManifestWriter` and `ManifestReader` over the bytes
of the file. The reader fails on the first frame it cannot decode, and a file
shorter than a header gets a second header appended to it, so a truncated manifest
is recovered exactly when it was cut to nothing or between two frames.
-/
namespace SkeinDB.Manifest
open SkeinDB.Codec SkeinDB.Format

/-- One round of `iter_record_frames` and the record in the frame. -/
def decodeFrame (rest : Bytes) : Except ManifestError (ManifestRecord × Bytes) :=
  match decodeRecordFrame rest with
  | .error e => .error (.format e)
  | .ok (payload, rest) => (ManifestRecord.decode payload).map (fun r => (r, rest))

/-- A reader positioned behind the header. -/
structure ManifestReader where
  tail : Bytes

namespace ManifestReader

def «open» (file : Bytes) : Except ManifestError ManifestReader :=
  if file.length < fileHeaderLen then .error .badHeader
  else match FileHeader.decode (file.take fileHeaderLen) with
    | .error e => .error (.format e)
    | .ok header =>
      if header.fileKind ≠ .manifest then .error .badHeader else .ok ⟨file.drop fileHeaderLen⟩

def readAll (reader : ManifestReader) : Except ManifestError (List ManifestRecord) :=
  let found := scanLoop decodeFrame reader.tail.length reader.tail
  match found.stopped with
  | none => .ok found.records
  | some e => .error e

def replayState (reader : ManifestReader) : Except ManifestError ManifestState :=
  (reader.readAll).map replay

end ManifestReader

structure ManifestWriter where
  file : Bytes
  state : ManifestState

namespace ManifestWriter

/-- `ManifestWriter::open` on the contents of the path, `none` when there is no file. -/
def «open» (now : UInt64) (file : Option Bytes) : Except ManifestError ManifestWriter := do
  let contents := file.getD []
  if file.isSome ∧ fileHeaderLen ≤ contents.length then
    let state ← (← ManifestReader.open contents).replayState
    .ok ⟨contents, state⟩
  else
    let contents ← (fileAppend contents (FileHeader.new .manifest 0 now).encode).mapError .io
    .ok ⟨contents, {}⟩

def append (w : ManifestWriter) (r : ManifestRecord) : Except ManifestError ManifestWriter := do
  let frame ← (appendRecordFrame [] r.encode).mapError .format
  let file ← (fileAppend w.file frame).mapError .io
  .ok ⟨file, w.state.apply r⟩

def appendAll (w : ManifestWriter) : List ManifestRecord → Except ManifestError ManifestWriter
  | [] => .ok w
  | r :: rs => do
    let w ← w.append r
    w.appendAll rs

end ManifestWriter

/-- The stream of manifest frames. Every record fits a frame. -/
def manifestCodec : StreamCodec ManifestRecord ManifestError :=
  framed (fun _ => True) ManifestRecord.encode ManifestRecord.decode .format
    (fun r _ => lt_of_le_of_lt r.encode_length_le (by norm_num))
    (fun r _ => r.decode_encode)

/-- A file that holds exactly the frames of `log` behind a manifest header. -/
structure HoldsLog (file : Bytes) (log : List ManifestRecord) : Prop where
  header : ∃ now, file = (FileHeader.new .manifest 0 now).encode ++ manifestCodec.encodeAll log
  size : file.length < 2 ^ 63

theorem HoldsLog.length_eq {file : Bytes} {log : List ManifestRecord} (h : HoldsLog file log) :
    file.length = fileHeaderLen + (manifestCodec.encodeAll log).length := by
  obtain ⟨now, rfl⟩ := h.header
  rw [List.length_append, FileHeader.encode_length]

theorem open_header (now : UInt64) (tail : Bytes) :
    ManifestReader.open ((FileHeader.new .manifest 0 now).encode ++ tail) = .ok ⟨tail⟩ := by
  have hshort : ¬ ((FileHeader.new .manifest 0 now).encode ++ tail).length < fileHeaderLen := by
    simp
  have htake : ((FileHeader.new .manifest 0 now).encode ++ tail).take fileHeaderLen =
      (FileHeader.new .manifest 0 now).encode := List.take_left' (FileHeader.encode_length _)
  have hdrop : ((FileHeader.new .manifest 0 now).encode ++ tail).drop fileHeaderLen = tail :=
    List.drop_left' (FileHeader.encode_length _)
  have hdecode := FileHeader.decode_encode (FileHeader.new .manifest 0 now) [] rfl
  rw [List.append_nil] at hdecode
  simp only [ManifestReader.open, if_neg hshort, htake, hdecode, hdrop]
  simp [FileHeader.new]

theorem append_cases {w w' : ManifestWriter} {r : ManifestRecord} (h : w.append r = .ok w') :
    (w.file ++ manifestCodec.encode r).length < 2 ^ 63 ∧
      w' = ⟨w.file ++ manifestCodec.encode r, w.state.apply r⟩ := by
  have hframe : r.encode.length < 2 ^ 32 := lt_of_le_of_lt r.encode_length_le (by norm_num)
  change (w.file ++ recordFrame r.encode).length < 2 ^ 63 ∧
    w' = ⟨w.file ++ recordFrame r.encode, w.state.apply r⟩
  simp only [ManifestWriter.append, appendRecordFrame, fileAppend, if_pos hframe,
    List.nil_append, bind, Except.bind, Except.mapError] at h
  by_cases hsize : w.file.length + (recordFrame r.encode).length < 2 ^ 63
  · rw [if_pos hsize] at h
    cases h
    exact ⟨by rwa [List.length_append], rfl⟩
  · rw [if_neg hsize] at h
    cases h

/-- A writer whose state is the replay of the frames in its file. -/
structure WriterInv (w : ManifestWriter) (log : List ManifestRecord) : Prop where
  holds : HoldsLog w.file log
  state : w.state = replay log

theorem append_inv {w w' : ManifestWriter} {log : List ManifestRecord} {r : ManifestRecord}
    (hw : WriterInv w log) (h : w.append r = .ok w') : WriterInv w' (log ++ [r]) := by
  obtain ⟨hsize, rfl⟩ := append_cases h
  obtain ⟨now, hfile⟩ := hw.holds.header
  refine ⟨⟨⟨now, ?_⟩, hsize⟩, ?_⟩
  · simp [hfile, StreamCodec.encodeAll_append]
  · simp [hw.state, replay]

end SkeinDB.Manifest
