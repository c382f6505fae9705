import SkeinDB.Wal.Record

/-!
# The WAL writer and reader

`skeindb-core/src/wal.rs`: `WalWriter` and the scan of `WalReader`, over the bytes
of the file. `Written w log` describes the files these operations produce,
crashes included; such a file is a header followed by the frames of `log`.
-/
namespace SkeinDB.Wal
open SkeinDB.Codec SkeinDB.Format

/-- One round of the scan loop: the first frame and the record in it. -/
def decodeFrame (rest : Bytes) : Except WalError (WalRecord × Bytes) :=
  match decodeRecordFrame rest with
  | .error e => .error (.format e)
  | .ok (payload, rest) => (WalRecord.decode payload).map (fun r => (r, rest))

/-- `tailError` is the error whose text the source keeps. -/
structure ScanResult where
  records : List WalRecord
  validBytes : ℕ
  truncatedTail : Bool
  tailError : Option WalError

/-- A reader of the file's current contents. -/
structure WalReader where
  file : Bytes

namespace WalReader

def «open» (file : Bytes) : Except WalError WalReader :=
  if file.length < fileHeaderLen then .error .badHeader
  else match FileHeader.decode (file.take fileHeaderLen) with
    | .error e => .error (.format e)
    | .ok header => if header.fileKind ≠ .wal then .error .badHeader else .ok ⟨file⟩

def scan (reader : WalReader) (strict : Bool) : Except WalError ScanResult :=
  let bytes := reader.file.drop fileHeaderLen
  let found := scanLoop decodeFrame bytes.length bytes
  match found.stopped with
  | none => .ok ⟨found.records, found.validBytes, false, none⟩
  | some err =>
    if strict then .error err else .ok ⟨found.records, found.validBytes, true, some err⟩

def scanStrict (reader : WalReader) : Except WalError ScanResult := reader.scan true

def scanLenient (reader : WalReader) : Except WalError ScanResult := reader.scan false

def readAll (reader : WalReader) : Except WalError (List WalRecord) := do
  return (← reader.scanStrict).records

end WalReader

structure WalWriter where
  file : Bytes
  nextLsn : UInt64
  truncatedTail : Bool
  discardedTailBytes : ℕ
  deriving DecidableEq

namespace WalWriter

/-- `WalWriter::open` on the contents of the path, `none` when there is no file. -/
def «open» (now : UInt64) (file : Option Bytes) : Except WalError WalWriter := do
  let contents := file.getD []
  if contents.length = 0 then
    let contents ← (fileAppend [] (FileHeader.new .wal 0 now).encode).mapError .io
    .ok ⟨contents, 1, false, 0⟩
  else if contents.length < fileHeaderLen then .error .badHeader
  else
    let scan ← (← WalReader.open contents).scanLenient
    let nextLsn := (scan.records.getLast?.map (fun r => r.lsn + 1)).getD 1
    if scan.truncatedTail then
      let kept := fileHeaderLen + scan.validBytes
      .ok ⟨contents.take kept, nextLsn, true, contents.length - kept⟩
    else .ok ⟨contents, nextLsn, false, 0⟩

def append (w : WalWriter) (record : WalRecord) : Except WalError (UInt64 × WalWriter) := do
  let lsn := w.nextLsn
  let payload := (record.withLsn lsn).encode
  let frame ← (appendRecordFrame [] payload).mapError .format
  let file ← (fileAppend w.file frame).mapError .io
  .ok (lsn, { w with file := file, nextLsn := w.nextLsn + 1 })

def beginTxn (w : WalWriter) (txnId : UInt64) : Except WalError (UInt64 × WalWriter) :=
  w.append (.beginV1 txnId)

def appendMutation (w : WalWriter) (txnId : UInt64) (payload : Bytes) :
    Except WalError (UInt64 × WalWriter) :=
  w.append (.mutationV1 txnId payload)

def commitTxn (w : WalWriter) (txnId : UInt64) : Except WalError (UInt64 × WalWriter) :=
  w.append (.commitV1 txnId)

def abortTxn (w : WalWriter) (txnId : UInt64) : Except WalError (UInt64 × WalWriter) :=
  w.append (.abortV1 txnId)

def appendAll (w : WalWriter) : List WalRecord → Except WalError WalWriter
  | [] => .ok w
  | r :: rs => do
    let (_, w) ← w.append r
    w.appendAll rs

end WalWriter

/-- The stream of WAL frames, over well-formed records that fit a frame. -/
def walCodec : StreamCodec WalRecord WalError :=
  framed (fun r => r.WellFormed ∧ r.encode.length < 2 ^ 32) WalRecord.encode WalRecord.decode
    .format (fun _ h => h.2) (fun _ h => WalRecord.decode_encode h.1 h.2)

/-- The records as the writer stores them when its next LSN is `lsn`. -/
def stampLsns : UInt64 → List WalRecord → List WalRecord
  | _, [] => []
  | lsn, r :: rs => r.withLsn lsn :: stampLsns (lsn + 1) rs

/-- The writers that creating a log, appending to it and reopening it after a crash that
cut the file behind its header can produce, with the records the file holds. -/
inductive Written : WalWriter → List WalRecord → Prop
  | create {now : UInt64} {w : WalWriter} (h : WalWriter.open now none = .ok w) : Written w []
  | append {w w' : WalWriter} {log : List WalRecord} {r : WalRecord} {lsn : UInt64}
      (hw : Written w log) (hr : r.WellFormed) (h : w.append r = .ok (lsn, w')) :
      Written w' (log ++ [r.withLsn lsn])
  | reopen {now : UInt64} {w w' : WalWriter} {log : List WalRecord} {n : ℕ}
      (hw : Written w log) (hn : fileHeaderLen ≤ n) (hcut : n ≤ w.file.length)
      (h : WalWriter.open now (some (w.file.take n)) = .ok w') :
      Written w' (walCodec.contained log (n - fileHeaderLen))

/-- A file that holds exactly the frames of `log` behind a WAL header. -/
structure HoldsLog (file : Bytes) (log : List WalRecord) : Prop where
  header : ∃ now, file = (FileHeader.new .wal 0 now).encode ++ walCodec.encodeAll log
  valid : ∀ r ∈ log, walCodec.Valid r
  size : file.length < 2 ^ 63

/-- LSNs are handed out consecutively from 1. -/
structure WriterInv (w : WalWriter) (log : List WalRecord) : Prop where
  holds : HoldsLog w.file log
  nextLsn : w.nextLsn.toNat = log.length + 1
  lsns : log.map (fun r => r.lsn.toNat) = List.range' 1 log.length

end SkeinDB.Wal
