import SkeinDB.Rows.Version

/-!
# Row segments

`skeindb-core/src/rowseg.rs`: the append-only writer of a row segment and its reader.
The writer accepts any payload that fits a record frame; the reader looks at no more
than 16 MiB from the start of a frame.
-/
namespace SkeinDB.Rows
open SkeinDB.Codec SkeinDB.Format

structure RowSegmentEntry where
  offset : ℕ
  row : RowVersion
  deriving DecidableEq, Repr

/-- A writer over the contents of its file. -/
structure RowSegmentWriter where
  file : Bytes
  fileId : UInt32
  cursorOffset : ℕ
  closed : Bool

/-- `read_exact` of the header of a segment file. -/
def readSegmentHeader (file : Bytes) : Except RowSegError FileHeader :=
  if file.length < fileHeaderLen then .error (.io .unexpectedEof)
  else match FileHeader.decode (file.take fileHeaderLen) with
    | .error e => .error (.format e)
    | .ok header => if header.fileKind ≠ .rowSeg then .error .badHeader else .ok header

namespace RowSegmentWriter

def create (fileId : UInt32) (createdUnixS : UInt64) : Except RowSegError RowSegmentWriter := do
  let file ← (fileAppend [] (FileHeader.new .rowSeg fileId createdUnixS).encode).mapError .io
  .ok ⟨file, fileId, fileHeaderLen, false⟩

def «open» (file : Bytes) : Except RowSegError RowSegmentWriter := do
  let header ← readSegmentHeader file
  .ok ⟨file, header.fileId, file.length, false⟩

def append (w : RowSegmentWriter) (row : RowVersion) :
    Except RowSegError (FilePtr × RowSegmentWriter) :=
  if w.closed then .error .writerClosed
  else do
    let buf ← (appendRecordFrame [] row.encode).mapError .format
    let recordOffset := w.cursorOffset
    let file ← (fileAppend w.file buf).mapError .io
    if 2 ^ 64 ≤ recordOffset + buf.length then .error (.invalidRecord "file offset overflow")
    else .ok (⟨w.fileId, UInt64.ofNat recordOffset⟩,
      { w with file := file, cursorOffset := recordOffset + buf.length })

end RowSegmentWriter

/-- A reader over the contents of its file when it was opened. -/
structure RowSegmentReader where
  file : Bytes
  fileId : UInt32
  endOffset : ℕ

/-- `16 * 1024 * 1024`. -/
def frameReadCap : ℕ := 16777216

namespace RowSegmentReader

def «open» (file : Bytes) : Except RowSegError RowSegmentReader := do
  let header ← readSegmentHeader file
  .ok ⟨file, header.fileId, file.length⟩

/-- The entry whose frame starts at the offset, and the offset behind it. -/
def readFrameAt (r : RowSegmentReader) (offset : ℕ) : Except RowSegError (RowSegmentEntry × ℕ) :=
  let remaining := r.endOffset - offset
  if remaining < 8 then .error (.invalidRecord "short record frame header")
  else
    let toRead := min remaining frameReadCap
    let buf := (r.file.drop offset).take toRead
    if buf.length < toRead then .error (.io .unexpectedEof)
    else do
      let (payload, slice) ← (decodeRecordFrame buf).mapError .format
      let consumed := buf.length - slice.length
      let row ← RowVersion.decode payload
      .ok (⟨offset, row⟩, offset + consumed)

/-- The loop of `read_all`. Every frame takes at least its header, so the length of the file
bounds the rounds. -/
def readLoop (r : RowSegmentReader) : ℕ → ℕ → Except RowSegError (List RowSegmentEntry)
  | 0, _ => .ok []
  | fuel + 1, offset =>
    if r.endOffset ≤ offset then .ok []
    else do
      let (entry, next) ← r.readFrameAt offset
      let rest ← r.readLoop fuel next
      .ok (entry :: rest)

def readAll (r : RowSegmentReader) : Except RowSegError (List RowSegmentEntry) :=
  r.readLoop r.file.length fileHeaderLen

def readAt (r : RowSegmentReader) (offset : ℕ) : Except RowSegError RowSegmentEntry :=
  if offset < fileHeaderLen ∨ r.endOffset ≤ offset then
    .error (.invalidRecord "offset outside file")
  else (r.readFrameAt offset).map (·.1)

end RowSegmentReader

/-- The writers that creating a segment, appending to it and opening it again can produce, with
the versions appended and the pointers returned for them. -/
inductive Written : RowSegmentWriter → List (FilePtr × RowVersion) → Prop
  | create {fileId : UInt32} {createdUnixS : UInt64} {w : RowSegmentWriter}
      (h : RowSegmentWriter.create fileId createdUnixS = .ok w) : Written w []
  | append {w w' : RowSegmentWriter} {rows : List (FilePtr × RowVersion)} {row : RowVersion}
      {ptr : FilePtr} (hw : Written w rows) (h : w.append row = .ok (ptr, w')) :
      Written w' (rows ++ [(ptr, row)])
  | reopen {w w' : RowSegmentWriter} {rows : List (FilePtr × RowVersion)} (hw : Written w rows)
      (h : RowSegmentWriter.open w.file = .ok w') : Written w' rows

/-- The file reads back as the versions appended: each one at its pointer, and all of them in
order. -/
def ReadsBack (file : Bytes) (rows : List (FilePtr × RowVersion)) : Prop :=
  ∃ r, RowSegmentReader.open file = .ok r ∧
    (∀ p ∈ rows, p.1.fileId = r.fileId ∧
      r.readAt p.1.offset.toNat = .ok ⟨p.1.offset.toNat, p.2⟩) ∧
    r.readAll = .ok (rows.map fun p => ⟨p.1.offset.toNat, p.2⟩)

section Layout
variable {w w' : RowSegmentWriter} {rows : List (FilePtr × RowVersion)}

/-- The frames of the versions, one behind the other. -/
def frames (rows : List (FilePtr × RowVersion)) : Bytes :=
  rows.flatMap fun p => recordFrame p.2.encode

/-- Each pointer is the offset of the frame of its version. -/
def Placed (fileId : UInt32) : ℕ → List (FilePtr × RowVersion) → Prop
  | _, [] => True
  | offset, p :: rows => p.1.fileId = fileId ∧ p.1.offset.toNat = offset ∧
      p.2.encode.length < 2 ^ 32 ∧ Placed fileId (offset + (recordFrame p.2.encode).length) rows

theorem Placed.append {fileId : UInt32} {offset : ℕ} {p : FilePtr × RowVersion}
    (h : Placed fileId offset rows) (hid : p.1.fileId = fileId)
    (hoffset : p.1.offset.toNat = offset + (frames rows).length)
    (hlen : p.2.encode.length < 2 ^ 32) : Placed fileId offset (rows ++ [p]) := by
  induction rows generalizing offset with
  | nil => exact ⟨hid, by simpa [frames] using hoffset, hlen, trivial⟩
  | cons q rows ih =>
    obtain ⟨hq, hqoffset, hqlen, hrest⟩ := h
    refine ⟨hq, hqoffset, hqlen, ih hrest ?_⟩
    rw [hoffset, frames, frames, List.flatMap_cons, List.length_append]
    omega

/-- What a segment file holds. -/
structure Layout (w : RowSegmentWriter) (rows : List (FilePtr × RowVersion)) : Prop where
  file : ∃ createdUnixS, w.file =
    (FileHeader.new .rowSeg w.fileId createdUnixS).encode ++ frames rows
  placed : Placed w.fileId fileHeaderLen rows
  cursor : w.cursorOffset = w.file.length
  size : w.file.length < 2 ^ 63

theorem readSegmentHeader_of_layout (h : Layout w rows) :
    ∃ header, readSegmentHeader w.file = .ok header ∧ header.fileId = w.fileId := by
  obtain ⟨createdUnixS, hfile⟩ := h.file
  refine ⟨FileHeader.new .rowSeg w.fileId createdUnixS, ?_, rfl⟩
  have hdecode := FileHeader.decode_encode (FileHeader.new .rowSeg w.fileId createdUnixS) [] rfl
  rw [List.append_nil] at hdecode
  have hlong : ¬ w.file.length < fileHeaderLen := by simp [hfile]
  rw [readSegmentHeader, if_neg hlong, hfile, List.take_left' (FileHeader.encode_length _), hdecode]
  rfl

theorem create_ok (fileId : UInt32) (createdUnixS : UInt64) :
    RowSegmentWriter.create fileId createdUnixS =
      .ok ⟨(FileHeader.new .rowSeg fileId createdUnixS).encode, fileId, fileHeaderLen, false⟩ := by
  have hsmall : 0 + fileHeaderLen < 2 ^ 63 := by simp [fileHeaderLen]
  simp only [RowSegmentWriter.create, fileAppend, List.nil_append, List.length_nil,
    FileHeader.encode_length, if_pos hsmall, Except.mapError, bind, Except.bind]

theorem append_eq_ok {row : RowVersion} {ptr : FilePtr} (h : w.append row = .ok (ptr, w')) :
    row.encode.length < 2 ^ 32 ∧ w.file.length + (recordFrame row.encode).length < 2 ^ 63 ∧
      ptr = ⟨w.fileId, UInt64.ofNat w.cursorOffset⟩ ∧
      w' = { w with
        file := w.file ++ recordFrame row.encode
        cursorOffset := w.cursorOffset + (recordFrame row.encode).length } := by
  unfold RowSegmentWriter.append at h
  split at h
  · cases h
  by_cases hfits : row.encode.length < 2 ^ 32
  · by_cases hsize : w.file.length + (recordFrame row.encode).length < 2 ^ 63
    · simp only [appendRecordFrame, if_pos hfits, fileAppend, List.nil_append, if_pos hsize,
        Except.mapError, bind, Except.bind] at h
      split at h
      · cases h
      · cases h
        exact ⟨hfits, hsize, rfl, rfl⟩
    · simp only [appendRecordFrame, if_pos hfits, fileAppend, List.nil_append, if_neg hsize,
        Except.mapError, bind, Except.bind] at h
      cases h
  · simp only [appendRecordFrame, if_neg hfits, Except.mapError, bind, Except.bind] at h
    cases h

theorem Layout.append {row : RowVersion} {ptr : FilePtr} (h : Layout w rows)
    (happend : w.append row = .ok (ptr, w')) : Layout w' (rows ++ [(ptr, row)]) := by
  obtain ⟨hfits, hsize, rfl, rfl⟩ := append_eq_ok happend
  obtain ⟨createdUnixS, hfile⟩ := h.file
  have hlen := congrArg List.length hfile
  rw [List.length_append, FileHeader.encode_length] at hlen
  refine ⟨⟨createdUnixS, ?_⟩, h.placed.append rfl ?_ hfits, ?_, ?_⟩
  · simp [hfile, frames]
  · rw [UInt64.toNat_ofNat', Nat.mod_eq_of_lt (by rw [h.cursor]; omega), h.cursor, hlen]
  · simp [h.cursor]
  · simpa using hsize

theorem Written.layout (h : Written w rows) : Layout w rows := by
  induction h with
  | @create fileId createdUnixS w h =>
    rw [create_ok] at h
    cases h
    exact ⟨⟨createdUnixS, by simp [frames]⟩, trivial, by simp, by simp [fileHeaderLen]⟩
  | append _ h ih => exact ih.append h
  | @reopen w w' rows hw h ih =>
    obtain ⟨header, hheader, hid⟩ := readSegmentHeader_of_layout ih
    simp only [RowSegmentWriter.open, hheader, bind, Except.bind] at h
    cases h
    rw [hid]
    exact ⟨ih.file, ih.placed, rfl, ih.size⟩

end Layout

section Growth
variable {r r' : RowSegmentReader} {offset : ℕ}

/-- A frame that was read is read again from any longer file. -/
theorem readFrameAt_grow {entry : RowSegmentEntry} {next : ℕ} (hend : r.endOffset = r.file.length)
    (hend' : r'.endOffset = r'.file.length) (hgrow : r.file <+: r'.file)
    (h : r.readFrameAt offset = .ok (entry, next)) : ∃ next', r'.readFrameAt offset =
      .ok (entry, next') := by
  obtain ⟨more, hmore⟩ := hgrow
  unfold RowSegmentReader.readFrameAt at h ⊢
  dsimp only at h ⊢
  split at h
  · cases h
  rename_i hlong
  have hlen := congrArg List.length hmore
  rw [List.length_append] at hlen
  have hlong' : ¬ r'.endOffset - offset < 8 := by omega
  split at h
  · cases h
  have hbuf : (r'.file.drop offset).take (min (r'.endOffset - offset) frameReadCap) =
      (r.file.drop offset).take (min (r.endOffset - offset) frameReadCap) ++
        more.take (min (r'.endOffset - offset) frameReadCap - (r.file.drop offset).length) := by
    rw [← hmore, List.drop_append_of_le_length (by omega), List.take_append]
    congr 1
    rcases Nat.le_total frameReadCap (r.endOffset - offset) with hcap | hcap
    · rw [min_eq_right hcap, min_eq_right (by omega)]
    · rw [min_eq_left hcap, List.take_of_length_le (by rw [List.length_drop]; omega),
        List.take_of_length_le (by rw [List.length_drop]; omega)]
  have hfull : ¬ ((r'.file.drop offset).take (min (r'.endOffset - offset) frameReadCap)).length <
      min (r'.endOffset - offset) frameReadCap := by
    rw [List.length_take, List.length_drop]
    omega
  rw [if_neg hlong', if_neg hfull, hbuf]
  cases hframe : decodeRecordFrame
      ((r.file.drop offset).take (min (r.endOffset - offset) frameReadCap)) with
  | error e => simp [hframe, Except.mapError, bind, Except.bind] at h
  | ok frame =>
    obtain ⟨payload, rest⟩ := frame
    rw [decodeRecordFrame_append hframe]
    cases hrow : RowVersion.decode payload with
    | error e => simp [hframe, hrow, Except.mapError, bind, Except.bind] at h
    | ok row =>
      simp only [hframe, hrow, Except.mapError, bind, Except.bind] at h ⊢
      cases h
      exact ⟨_, rfl⟩

theorem readAt_grow {entry : RowSegmentEntry} (hend : r.endOffset = r.file.length)
    (hend' : r'.endOffset = r'.file.length) (hgrow : r.file <+: r'.file)
    (h : r.readAt offset = .ok entry) : r'.readAt offset = .ok entry := by
  unfold RowSegmentReader.readAt at h ⊢
  split at h
  · cases h
  rename_i hinside
  have hlen := hgrow.length_le
  rw [if_neg (by omega)]
  cases hframe : r.readFrameAt offset with
  | error e => simp [hframe, Except.map] at h
  | ok pair =>
    obtain ⟨found, next⟩ := pair
    obtain ⟨next', hread⟩ := readFrameAt_grow hend hend' hgrow hframe
    rw [hframe] at h
    rw [hread]
    exact h

end Growth

section Reading
variable {r : RowSegmentReader} {row : RowVersion} {front rest : Bytes}
  {rows : List (FilePtr × RowVersion)}

/-- A version whose frame the reader can see whole. -/
def RowVersion.Readable (row : RowVersion) : Prop :=
  recordFrameHeaderLen + row.encode.length ≤ frameReadCap

/-- The reader's buffer at the start of a frame. -/
theorem buffer_at_frame (hend : r.endOffset = r.file.length)
    (hfile : r.file = front ++ (recordFrame row.encode ++ rest)) :
    ¬ r.endOffset - front.length < 8 ∧
      ((r.file.drop front.length).take (min (r.endOffset - front.length) frameReadCap)).length =
        min (r.endOffset - front.length) frameReadCap ∧
      r.endOffset - front.length = (recordFrame row.encode ++ rest).length := by
  have hlen : r.endOffset - front.length = (recordFrame row.encode ++ rest).length := by
    rw [hend, hfile, List.length_append]
    omega
  refine ⟨?_, ?_, hlen⟩
  · rw [hlen, List.length_append, recordFrame_length, recordFrameHeaderLen]
    omega
  · rw [List.length_take, List.length_drop, hend]
    omega

theorem readFrameAt_frame (hend : r.endOffset = r.file.length)
    (hfile : r.file = front ++ (recordFrame row.encode ++ rest))
    (hfits : row.encode.length < 2 ^ 32) (hcap : row.Readable) :
    r.readFrameAt front.length =
      .ok (⟨front.length, row⟩, front.length + (recordFrame row.encode).length) := by
  obtain ⟨hlong, hbuf, hlen⟩ := buffer_at_frame hend hfile
  have hframe : (recordFrame row.encode).length ≤ frameReadCap := by
    rw [recordFrame_length]
    exact hcap
  have htake : (r.file.drop front.length).take (min (r.endOffset - front.length) frameReadCap) =
      recordFrame row.encode ++ rest.take (min (r.endOffset - front.length) frameReadCap -
        (recordFrame row.encode).length) := by
    rw [hfile, List.drop_left, List.take_append, List.take_of_length_le]
    rw [hlen, List.length_append]
    omega
  unfold RowSegmentReader.readFrameAt
  simp only [if_neg hlong, hbuf, lt_irrefl, if_false]
  rw [htake, decodeRecordFrame_recordFrame _ _ hfits]
  simp only [Except.mapError, bind, Except.bind, RowVersion.decode_encode row hfits]
  rw [List.length_append] at hlen
  congr 3
  rw [List.length_take]
  omega

/-- A frame longer than the buffer looks cut off. -/
theorem readFrameAt_long (hend : r.endOffset = r.file.length)
    (hfile : r.file = front ++ (recordFrame row.encode ++ rest))
    (hfits : row.encode.length < 2 ^ 32) (hcap : ¬ row.Readable) :
    r.readFrameAt front.length = .error (.format .unexpectedEof) := by
  obtain ⟨hlong, hbuf, hlen⟩ := buffer_at_frame hend hfile
  have hframe : frameReadCap < (recordFrame row.encode).length := by
    rw [recordFrame_length]
    exact not_le.mp hcap
  have htake : (r.file.drop front.length).take (min (r.endOffset - front.length) frameReadCap) =
      (recordFrame row.encode).take frameReadCap := by
    rw [hlen, List.length_append, min_eq_right (by omega), hfile, List.drop_left,
      List.take_append_of_le_length (by omega)]
  unfold RowSegmentReader.readFrameAt
  simp only [if_neg hlong, hbuf, lt_irrefl, if_false]
  rw [htake, decodeRecordFrame_torn _ _ hfits hframe]
  rfl

/-- A pointer of a placed version finds its frame. -/
theorem Placed.split {fileId : UInt32} (h : Placed fileId front.length rows)
    {p : FilePtr × RowVersion} (hp : p ∈ rows) :
    p.1.fileId = fileId ∧ p.2.encode.length < 2 ^ 32 ∧ ∃ before after,
      front ++ frames rows = (front ++ before) ++ (recordFrame p.2.encode ++ after) ∧
        p.1.offset.toNat = (front ++ before).length := by
  induction rows generalizing front with
  | nil => cases hp
  | cons q rows ih =>
    obtain ⟨hid, hoffset, hlen, hrest⟩ := h
    rcases List.mem_cons.mp hp with rfl | hp
    · exact ⟨hid, hlen, [], frames rows, by simp [frames], by simpa using hoffset⟩
    · rw [← List.length_append] at hrest
      obtain ⟨hpid, hplen, before, after, hsplit, hpoffset⟩ := ih hrest hp
      refine ⟨hpid, hplen, recordFrame q.2.encode ++ before, after, ?_, ?_⟩
      · simpa [frames] using hsplit
      · simpa using hpoffset

theorem readLoop_frames {fileId : UInt32} {fuel : ℕ} (hend : r.endOffset = r.file.length)
    (hfile : r.file = front ++ frames rows) (hplaced : Placed fileId front.length rows)
    (hcap : ∀ p ∈ rows, p.2.Readable) (hfuel : (frames rows).length < fuel) :
    r.readLoop fuel front.length = .ok (rows.map fun p => ⟨p.1.offset.toNat, p.2⟩) := by
  induction rows generalizing front fuel with
  | nil =>
    obtain ⟨fuel, rfl⟩ : ∃ k, fuel = k + 1 := ⟨fuel - 1, by omega⟩
    rw [RowSegmentReader.readLoop, if_pos (by simp [hend, hfile, frames])]
    rfl
  | cons p rows ih =>
    obtain ⟨fuel, rfl⟩ : ∃ k, fuel = k + 1 := ⟨fuel - 1, by omega⟩
    obtain ⟨-, hoffset, hlen, hrest⟩ := hplaced
    have hpos : 0 < (recordFrame p.2.encode).length := by
      rw [recordFrame_length, recordFrameHeaderLen]
      omega
    simp only [frames, List.flatMap_cons, List.length_append] at hfuel
    have hfile' : r.file = front ++ (recordFrame p.2.encode ++ frames rows) := hfile
    have hnext : r.readLoop fuel (front ++ recordFrame p.2.encode).length =
        .ok (rows.map fun p => ⟨p.1.offset.toNat, p.2⟩) := by
      refine ih (by rw [hfile', List.append_assoc]) ?_ (fun q hq => hcap q (by simp [hq])) ?_
      · rw [List.length_append]
        exact hrest
      · rw [frames]
        omega
    rw [List.length_append] at hnext
    have hmore : ¬ r.endOffset ≤ front.length := by
      rw [hend, hfile', List.length_append, List.length_append]
      omega
    rw [RowSegmentReader.readLoop, if_neg hmore,
      readFrameAt_frame hend hfile' hlen (hcap p (by simp))]
    simp only [bind, Except.bind, hnext, List.map_cons, hoffset]

theorem readAt_frame (hend : r.endOffset = r.file.length)
    (hfile : r.file = front ++ (recordFrame row.encode ++ rest))
    (hfront : fileHeaderLen ≤ front.length) :
    r.readAt front.length = (r.readFrameAt front.length).map (·.1) := by
  rw [RowSegmentReader.readAt, if_neg]
  rw [not_or, hend, hfile]
  simp only [List.length_append, recordFrame_length, recordFrameHeaderLen]
  omega

end Reading

section Results
variable {w : RowSegmentWriter} {rows : List (FilePtr × RowVersion)}

theorem open_of_layout (h : Layout w rows) :
    RowSegmentReader.open w.file = .ok ⟨w.file, w.fileId, w.file.length⟩ := by
  obtain ⟨header, hheader, hid⟩ := readSegmentHeader_of_layout h
  simp only [RowSegmentReader.open, hheader, bind, Except.bind, hid]

theorem readsBack_of_readable (h : Layout w rows) (hcap : ∀ p ∈ rows, p.2.Readable) :
    ReadsBack w.file rows := by
  obtain ⟨createdUnixS, hfile⟩ := h.file
  have hheader : (FileHeader.new .rowSeg w.fileId createdUnixS).encode.length = fileHeaderLen :=
    FileHeader.encode_length _
  have hplaced := h.placed
  rw [← hheader] at hplaced
  refine ⟨_, open_of_layout h, ?_, ?_⟩
  · intro p hp
    obtain ⟨hid, hlen, before, after, hsplit, hoffset⟩ := hplaced.split hp
    refine ⟨hid, ?_⟩
    rw [hoffset, readAt_frame rfl (hfile.trans hsplit) (by simp),
      readFrameAt_frame rfl (hfile.trans hsplit) hlen (hcap p hp)]
    rfl
  · have hfuel : (frames rows).length < w.file.length := by
      rw [hfile, List.length_append, hheader, fileHeaderLen]
      omega
    have hloop := readLoop_frames (r := ⟨w.file, w.fileId, w.file.length⟩) rfl hfile hplaced hcap
      hfuel
    rw [hheader] at hloop
    exact hloop

theorem readable_of_readsBack (h : Layout w rows) (hread : ReadsBack w.file rows)
    {p : FilePtr × RowVersion} (hp : p ∈ rows) : p.2.Readable := by
  by_contra hlong
  obtain ⟨createdUnixS, hfile⟩ := h.file
  have hplaced := h.placed
  rw [← FileHeader.encode_length (FileHeader.new .rowSeg w.fileId createdUnixS)] at hplaced
  obtain ⟨-, hlen, before, after, hsplit, hoffset⟩ := hplaced.split hp
  obtain ⟨r, hopen, hat, -⟩ := hread
  rw [open_of_layout h] at hopen
  cases hopen
  have hread := (hat p hp).2
  rw [hoffset, readAt_frame rfl (hfile.trans hsplit) (by simp),
    readFrameAt_long rfl (hfile.trans hsplit) hlen hlong] at hread
  cases hread

/-- A segment reads back exactly when the frame of every version in it is at most 16 MiB long. -/
theorem readsBack_iff (h : Written w rows) :
    ReadsBack w.file rows ↔ ∀ p ∈ rows, p.2.Readable :=
  ⟨fun hread _ hp => readable_of_readsBack h.layout hread hp, readsBack_of_readable h.layout⟩

/-- A new segment accepts any version that fits a record frame. -/
theorem create_append (fileId : UInt32) (createdUnixS : UInt64) {row : RowVersion}
    (h : row.encode.length < 2 ^ 32) :
    ∃ w w' ptr, RowSegmentWriter.create fileId createdUnixS = .ok w ∧
      w.append row = .ok (ptr, w') := by
  have hsize : fileHeaderLen + (recordFrame row.encode).length < 2 ^ 63 := by
    rw [recordFrame_length, recordFrameHeaderLen, fileHeaderLen]
    omega
  have hoffset : ¬ 2 ^ 64 ≤ fileHeaderLen + (recordFrame row.encode).length := by omega
  have happend : ∃ ptr w', RowSegmentWriter.append ⟨(FileHeader.new .rowSeg fileId
      createdUnixS).encode, fileId, fileHeaderLen, false⟩ row = .ok (ptr, w') := by
    simp only [RowSegmentWriter.append, Bool.false_eq_true, if_false, appendRecordFrame, if_pos h,
      fileAppend, List.nil_append, FileHeader.encode_length, if_pos hsize, Except.mapError, bind,
      Except.bind, if_neg hoffset]
    exact ⟨_, _, rfl⟩
  obtain ⟨ptr, w', happend⟩ := happend
  exact ⟨_, w', ptr, create_ok fileId createdUnixS, happend⟩

def sampleRow : RowVersion :=
  .new 7 42 1700000000 [⟨0, .inline [0x7B, 0x7D]⟩, ⟨1, .valueId ⟨List.replicate 16 9, rfl⟩⟩]

def deletedRow : RowVersion := ⟨rowFlagIsDelete, 7, 42, 1700000060, 0, .none, []⟩

/-- A tombstone after a version with two groups. -/
theorem readsBack_iff_sample :
    ∃ w ptr ptr', Written w [(ptr, sampleRow), (ptr', deletedRow)] ∧
      ReadsBack w.file [(ptr, sampleRow), (ptr', deletedRow)] := by
  obtain ⟨w, w₁, w₂, ptr, ptr', hcreate, happend, happend'⟩ : ∃ w w₁ w₂ ptr ptr',
      RowSegmentWriter.create 3 1700000000 = .ok w ∧ w.append sampleRow = .ok (ptr, w₁) ∧
        w₁.append deletedRow = .ok (ptr', w₂) :=
    ⟨_, _, _, _, _, create_ok 3 1700000000, rfl, rfl⟩
  have hwritten := Written.append (.append (.create hcreate) happend) happend'
  refine ⟨w₂, ptr, ptr', hwritten, (readsBack_iff hwritten).mpr fun p hp => ?_⟩
  fin_cases hp
  · exact (by decide : recordFrameHeaderLen + sampleRow.encode.length ≤ frameReadCap)
  · exact (by decide : recordFrameHeaderLen + deletedRow.encode.length ≤ frameReadCap)

/-- A version with one group of inline bytes. -/
def inlineRow (bytes : Bytes) : RowVersion := .new 7 42 1700000000 [⟨0, .inline bytes⟩]

theorem inlineRow_length (bytes : Bytes) : bytes.length < (inlineRow bytes).encode.length ∧
    (inlineRow bytes).encode.length ≤ bytes.length + 75 := by
  have hlen := encodeVaru_length_le (UInt64.ofNat bytes.length)
  have hid := encodeVaru_length_le 0
  have hcount := encodeVaru_length_le (UInt64.ofNat (0 + 1))
  simp only [inlineRow, RowVersion.new, RowVersion.encode, RowGroup.encode, List.flatMap_cons,
    List.flatMap_nil, List.append_nil, List.length_append, List.length_cons, List.length_nil,
    leBytes_length, FilePtr.encode_length, filePtrLen]
  omega

theorem inlineRow_unreadable {bytes : Bytes} (hbytes : bytes.length = frameReadCap) :
    ∃ w w' ptr, RowSegmentWriter.create 3 1700000000 = .ok w ∧
      w.append (inlineRow bytes) = .ok (ptr, w') ∧
      ¬ ReadsBack w'.file [(ptr, inlineRow bytes)] := by
  have hlen := inlineRow_length bytes
  have hcap : frameReadCap = 16777216 := rfl
  have hfits : (inlineRow bytes).encode.length < 2 ^ 32 := by omega
  obtain ⟨w, w', ptr, hcreate, happend⟩ := create_append 3 1700000000 hfits
  refine ⟨w, w', ptr, hcreate, happend, fun hread => ?_⟩
  have hlayout := (Written.append (.create hcreate) happend).layout
  have hreadable := readable_of_readsBack hlayout hread (List.mem_singleton.mpr rfl)
  simp only [RowVersion.Readable] at hreadable
  omega

/-- The writer accepts a version of 16 MiB, which the reader cannot read. -/
theorem append_long_unreadable :
    ∃ w w' ptr, RowSegmentWriter.create 3 1700000000 = .ok w ∧
      w.append (inlineRow (List.replicate frameReadCap 0)) = .ok (ptr, w') ∧
      ¬ ReadsBack w'.file [(ptr, inlineRow (List.replicate frameReadCap 0))] :=
  inlineRow_unreadable List.length_replicate

end Results

end SkeinDB.Rows
