import SkeinDB.Values.Import

/-!
# Value segments

`skeindb-core/src/valuestore.rs`: the VE1 payload of one entry, which segment files and
transfers share, and the segment writer and reader. A payload drops the depth and the skip
patches of a delta; loading recomputes them.
-/
namespace SkeinDB.Values
open SkeinDB.Codec SkeinDB.Format SkeinDB.Delta

inductive ValueSegmentCodec
  | raw
  | zstd
  deriving DecidableEq, Repr

def ValueSegmentCodec.toU8 : ValueSegmentCodec → UInt8
  | .raw => 0
  | .zstd => 1

def ValueSegmentCodec.fromU8 (v : UInt8) : Except ValueStoreError ValueSegmentCodec :=
  match v with
  | 0 => .ok .raw
  | 1 => .ok .zstd
  | _ => .error (.unsupportedValueCodec v)

/-- The compression library: `encode_all` at level 0 and `decode_all`. -/
structure Zstd where
  encodeAll : Bytes → Bytes
  decodeAll : Bytes → Except IoError Bytes

/-- What decompresses is what was compressed. -/
def Zstd.Lossless (z : Zstd) : Prop := ∀ bytes, z.decodeAll (z.encodeAll bytes) = .ok bytes

def vsegRecordType : UInt8 := 0x20

def vsegRecordVersion : UInt8 := 1

def delta1CodecCopyAdd : UInt8 := 0

def maybeCompressVsegBytes (z : Zstd) (bytes : Bytes) : ValueSegmentCodec × Bytes :=
  let compressed := z.encodeAll bytes
  if compressed.length < bytes.length then (.zstd, compressed) else (.raw, bytes)

def decodeVsegBytes (z : Zstd) (codec : ValueSegmentCodec) (stored : Bytes) :
    Except ValueStoreError Bytes :=
  match codec with
  | .raw => .ok stored
  | .zstd => (z.decodeAll stored).mapError .io

def valueKindFromU8 (v : UInt8) : Except ValueStoreError ValueKind :=
  match v with
  | 1 => .ok .cell
  | 2 => .ok .group
  | 3 => .ok .blobChunk
  | 4 => .ok .blobManifest
  | 5 => .ok .delta
  | 6 => .ok .embedding
  | _ => .error (.invalidValueKind v)

def encodeDelta1Bytes (delta : DeltaEntry) (patch : Bytes) : Bytes :=
  delta.base.val ++
    (delta1CodecCopyAdd :: (encodeLen delta.fullLen ++ (encodeLen patch.length ++ patch)))

theorem base_le_of_stored {stored : Bytes} (h : ¬ stored.length < 17) : 0 + 16 ≤ stored.length := by
  omega

def decodeDelta1Bytes (rawLen : ℕ) (stored : Bytes) : Except ValueStoreError (DeltaEntry × Bytes) :=
  if h : stored.length < 17 then .error (.format .unexpectedEof)
  else
    let base : ValueId := ByteArr.slice 16 0 stored (base_le_of_stored h)
    let deltaCodec := stored.getD 16 0
    if deltaCodec ≠ delta1CodecCopyAdd then .error (.unsupportedDeltaCodec deltaCodec)
    else do
      let (fullLen, rest) ← decodeLen (stored.drop 17)
      if fullLen ≠ rawLen then .error (.invalidSegmentEntry .deltaFullLenMismatch)
      else
        let (patchLen, rest) ← decodeLen rest
        if rest.length < patchLen then .error (.format .unexpectedEof)
        else if rest.drop patchLen ≠ [] then
          .error (.invalidSegmentEntry .trailingBytesAfterDelta1)
        else .ok (⟨base, fullLen, 0, []⟩, rest.take patchLen)

/-- The length and the bytes that a payload stores. -/
def ValueEntry.rawBytes (entry : ValueEntry) : Except ValueStoreError (ℕ × Bytes) :=
  if entry.kind ≠ .delta then .ok (entry.bytes.length, entry.bytes)
  else match entry.delta with
    | none => .error .invalidDelta
    | some delta => .ok (delta.fullLen, encodeDelta1Bytes delta entry.bytes)

def encodeVsegEntry (z : Zstd) (id : ValueId) (entry : ValueEntry) :
    Except ValueStoreError Bytes := do
  let (rawLen, raw) ← entry.rawBytes
  let (codec, stored) := maybeCompressVsegBytes z raw
  .ok ([vsegRecordType, vsegRecordVersion, entry.kind.toU8, codec.toU8] ++
    (id.val ++ (encodeLen rawLen ++ (encodeLen stored.length ++ stored))))

def decodeVsegEntry (z : Zstd) (payload : Bytes) : Except ValueStoreError ValueSegmentEntry :=
  if h : payload.length < 20 then .error (.format .unexpectedEof)
  else if payload.getD 0 0 ≠ vsegRecordType then
    .error (.invalidSegmentRecordType (payload.getD 0 0))
  else if payload.getD 1 0 ≠ vsegRecordVersion then
    .error (.unsupportedSegmentRecordVersion (payload.getD 1 0))
  else do
    let kind ← valueKindFromU8 (payload.getD 2 0)
    let codec ← ValueSegmentCodec.fromU8 (payload.getD 3 0)
    let id : ValueId := ByteArr.slice 16 4 payload (by omega)
    let (rawLen, rest) ← decodeLen (payload.drop 20)
    let (storedLen, rest) ← decodeLen rest
    if rest.length < storedLen then .error (.format .unexpectedEof)
    else
      let stored ← decodeVsegBytes z codec (rest.take storedLen)
      if rest.drop storedLen ≠ [] then .error (.invalidSegmentEntry .trailingBytesAfterVE1)
      else if kind = .delta then
        let (delta, patch) ← decodeDelta1Bytes rawLen stored
        .ok ⟨id, kind, patch, some delta⟩
      else if rawLen ≠ stored.length then .error (.invalidSegmentEntry .rawLenMismatch)
      else .ok ⟨id, kind, stored, none⟩

def encodeTransferEntry (z : Zstd) (id : ValueId) (entry : ValueEntry) :
    Except ValueStoreError Bytes := encodeVsegEntry z id entry

def decodeTransferEntry (z : Zstd) (payload : Bytes) : Except ValueStoreError ValueSegmentEntry :=
  decodeVsegEntry z payload

/-- The export of one entry; the lookup also counts in the statistics of the store. -/
def ValueStore.exportTransferEntry (z : Zstd) (s : ValueStore) (id : ValueId) :
    Except ValueStoreError Bytes × ValueStore :=
  let (found, s) := s.get id
  match found with
  | none => (.error .notFound, s)
  | some entry => (encodeVsegEntry z id entry, s)

/-- The contents of the file behind a segment writer. -/
structure ValueSegmentWriter where
  file : Bytes

namespace ValueSegmentWriter

/-- `create` truncates, so what was at the path does not matter. -/
def create (now : UInt64) : Except ValueStoreError ValueSegmentWriter := do
  let file ← (fileAppend [] (FileHeader.new .valSeg 0 now).encode).mapError .io
  .ok ⟨file⟩

def append (z : Zstd) (w : ValueSegmentWriter) (id : ValueId) (entry : ValueEntry) :
    Except ValueStoreError ValueSegmentWriter := do
  let payload ← encodeVsegEntry z id entry
  let frame ← (appendRecordFrame [] payload).mapError .format
  let file ← (fileAppend w.file frame).mapError .io
  .ok ⟨file⟩

/-- A segment of the given entries, in order. -/
def writeAll (z : Zstd) (now : UInt64) (entries : List (ValueId × ValueEntry)) :
    Except ValueStoreError Bytes := do
  let w ← create now
  let w ← entries.foldlM (fun w e => w.append z e.1 e.2) w
  .ok w.file

end ValueSegmentWriter

/-- `write_segment_file`: every entry of the store, in the order of insertion. -/
def ValueStore.writeSegmentFile (z : Zstd) (now : UInt64) (s : ValueStore) :
    Except ValueStoreError Bytes :=
  ValueSegmentWriter.writeAll z now (s.entryIds.zip s.entries)

def validateVsegHeader (file : Bytes) : Except ValueStoreError Unit :=
  if file.length < fileHeaderLen then .error .badHeader
  else match FileHeader.decode (file.take fileHeaderLen) with
    | .error e => .error (.format e)
    | .ok header => if header.fileKind ≠ .valSeg then .error .badHeader else .ok ()

/-- One round of the read loop: the first frame and the entry in it. -/
def decodeSegmentFrame (z : Zstd) (rest : Bytes) :
    Except ValueStoreError (ValueSegmentEntry × Bytes) :=
  match decodeRecordFrame rest with
  | .error e => .error (.format e)
  | .ok (payload, rest) => (decodeVsegEntry z payload).map (fun e => (e, rest))

/-- `read_all` of a segment reader on the contents of its file. -/
def readSegment (z : Zstd) (file : Bytes) : Except ValueStoreError (List ValueSegmentEntry) :=
  let bytes := file.drop fileHeaderLen
  let found := scanLoop (decodeSegmentFrame z) bytes.length bytes
  match found.stopped with
  | none => .ok found.records
  | some e => .error e

/-- `load_segment_file`; `none` is a load that does not return. -/
def loadSegmentFile (env : Env) (z : Zstd) (config : ValueStoreConfig) (file : Bytes) :
    Option (Except ValueStoreError ValueStore) :=
  match validateVsegHeader file with
  | .error e => some (.error e)
  | .ok () =>
    match readSegment z file with
    | .error e => some (.error e)
    | .ok entries => ValueStore.loadStore env config entries

@[simp] theorem valueKindFromU8_toU8 (kind : ValueKind) :
    valueKindFromU8 kind.toU8 = .ok kind := by
  cases kind <;> rfl

@[simp] theorem ValueSegmentCodec.fromU8_toU8 (codec : ValueSegmentCodec) :
    fromU8 codec.toU8 = .ok codec := by
  cases codec <;> rfl

/-- The lengths of an entry fit the length fields of a payload. -/
structure ValueEntry.Storable (entry : ValueEntry) : Prop where
  bytes : entry.bytes.length < 2 ^ 64
  delta : ∀ delta, entry.delta = some delta →
    delta.fullLen < 2 ^ 64 ∧ entry.bytes.length + 64 < 2 ^ 64

/-- The entry as a payload keeps it. -/
def ValueEntry.stored (entry : ValueEntry) : ValueEntry :=
  if entry.kind = .delta then entry.plain else { entry with delta := none }

theorem encodeDelta1Bytes_length_le (delta : DeltaEntry) (patch : Bytes) :
    (encodeDelta1Bytes delta patch).length ≤ 37 + patch.length := by
  have h1 := encodeLen_length_le delta.fullLen
  have h2 := encodeLen_length_le patch.length
  simp only [encodeDelta1Bytes, List.length_append, List.length_cons, delta.base.property]
  omega

theorem decodeDelta1Bytes_encode {delta : DeltaEntry} {patch : Bytes}
    (hfull : delta.fullLen < 2 ^ 64) (hpatch : patch.length < 2 ^ 64) :
    decodeDelta1Bytes delta.fullLen (encodeDelta1Bytes delta patch) =
      .ok ({ delta with depth := 0, skip := [] }, patch) := by
  have hbase := delta.base.property
  have hlen : ¬ (encodeDelta1Bytes delta patch).length < 17 := by
    simp only [encodeDelta1Bytes, List.length_append, List.length_cons, hbase]
    omega
  have hslice : ByteArr.slice 16 0 (encodeDelta1Bytes delta patch) (by omega) = delta.base :=
    ByteArr.slice_append delta.base [] _ rfl rfl _
  have hcodec : (encodeDelta1Bytes delta patch).getD 16 0 = delta1CodecCopyAdd := by
    rw [encodeDelta1Bytes, List.getD_eq_getElem?_getD, List.getElem?_append_right (by omega), hbase]
    rfl
  have hdrop : (encodeDelta1Bytes delta patch).drop 17 =
      encodeLen delta.fullLen ++ (encodeLen patch.length ++ patch) := by
    rw [encodeDelta1Bytes, List.drop_append, List.drop_of_length_le (by omega), hbase]
    rfl
  rw [decodeDelta1Bytes, dif_neg hlen]
  simp only [hslice, hcodec, hdrop, ne_eq, not_true_eq_false, if_false,
    decodeLen_encodeLen hfull, decodeLen_encodeLen hpatch, bind, Except.bind]
  simp

theorem decodeVsegBytes_maybeCompress {z : Zstd} (hz : z.Lossless) (bytes : Bytes) :
    decodeVsegBytes z (maybeCompressVsegBytes z bytes).1 (maybeCompressVsegBytes z bytes).2 =
      .ok bytes := by
  unfold maybeCompressVsegBytes
  simp only
  split
  · simp [decodeVsegBytes, hz bytes, Except.mapError]
  · rfl

theorem maybeCompress_length_le (z : Zstd) (bytes : Bytes) :
    (maybeCompressVsegBytes z bytes).2.length ≤ bytes.length := by
  unfold maybeCompressVsegBytes
  simp only
  split
  · rename_i hlt
    exact hlt.le
  · rfl

/-- The raw bytes fit and give back the entry. -/
theorem rawBytes_ok {entry : ValueEntry} (hfit : entry.Storable) {rawLen : ℕ} {raw : Bytes}
    (h : entry.rawBytes = .ok (rawLen, raw)) :
    rawLen < 2 ^ 64 ∧ raw.length < 2 ^ 64 ∧
      ((entry.kind = .delta ∧ ∃ delta, decodeDelta1Bytes rawLen raw = .ok (delta, entry.bytes) ∧
          entry.stored = ⟨entry.kind, entry.bytes, some delta⟩) ∨
        (entry.kind ≠ .delta ∧ rawLen = raw.length ∧ entry.stored = ⟨entry.kind, raw, none⟩)) := by
  have hbytes := hfit.bytes
  unfold ValueEntry.rawBytes at h
  split at h
  · rename_i hkind
    cases h
    exact ⟨hbytes, hbytes, .inr ⟨hkind, rfl, by simp [ValueEntry.stored, hkind]⟩⟩
  · rename_i hkind
    rw [not_not] at hkind
    split at h
    · cases h
    · rename_i delta hdelta
      cases h
      obtain ⟨hfull, hpatch⟩ := hfit.delta delta hdelta
      have hlen := encodeDelta1Bytes_length_le delta entry.bytes
      refine ⟨hfull, by omega, .inl ⟨hkind, _, decodeDelta1Bytes_encode hfull hbytes, ?_⟩⟩
      simp [ValueEntry.stored, hkind, ValueEntry.plain, hdelta]

/-- A payload decodes to the entry without its recomputable metadata. -/
theorem decodeVsegEntry_encode {z : Zstd} (hz : z.Lossless) {id : ValueId} {entry : ValueEntry}
    (hfit : entry.Storable) {payload : Bytes} (h : encodeVsegEntry z id entry = .ok payload) :
    decodeVsegEntry z payload = .ok ⟨id, entry.stored⟩ := by
  unfold encodeVsegEntry at h
  cases hraw : entry.rawBytes with
  | error e => simp [hraw, bind, Except.bind] at h
  | ok r =>
    obtain ⟨rawLen, raw⟩ := r
    obtain ⟨hrawLen, hrawSize, hentry⟩ := rawBytes_ok hfit hraw
    have hcodec := decodeVsegBytes_maybeCompress hz raw
    have hsize := maybeCompress_length_le z raw
    simp only [hraw, bind, Except.bind, Except.ok.injEq] at h
    generalize maybeCompressVsegBytes z raw = compressed at h hcodec hsize
    obtain ⟨codec, stored⟩ := compressed
    simp only at h hcodec hsize
    have hid := id.property
    have hlen : ¬ payload.length < 20 := by
      rw [← h]
      simp only [List.length_append, List.length_cons, List.length_nil, hid]
      omega
    have hslice : ByteArr.slice 16 4 payload (by omega) = id :=
      ByteArr.slice_append id _ _ h.symm rfl _
    have hdrop : payload.drop 20 = encodeLen rawLen ++ (encodeLen stored.length ++ stored) := by
      rw [← h, List.drop_append, List.drop_of_length_le (by simp), List.drop_append,
        List.drop_of_length_le (by simp [hid]), hid]
      rfl
    have h0 : payload.getD 0 0 = vsegRecordType := by rw [← h]; rfl
    have h1 : payload.getD 1 0 = vsegRecordVersion := by rw [← h]; rfl
    have h2 : payload.getD 2 0 = entry.kind.toU8 := by rw [← h]; rfl
    have h3 : payload.getD 3 0 = codec.toU8 := by rw [← h]; rfl
    rw [decodeVsegEntry, dif_neg hlen]
    simp only [h0, h1, h2, h3, hslice, hdrop, ne_eq, not_true_eq_false, if_false, bind, Except.bind,
      valueKindFromU8_toU8, ValueSegmentCodec.fromU8_toU8, decodeLen_encodeLen hrawLen,
      decodeLen_encodeLen (show stored.length < 2 ^ 64 by omega), lt_irrefl, List.take_length,
      hcodec, List.drop_length]
    rcases hentry with ⟨hkind, delta, hdelta, hstored⟩ | ⟨hkind, rfl, hstored⟩
    · simp [hkind, hdelta, hstored]
    · simp [hkind, hstored]

theorem stored_kind (entry : ValueEntry) : entry.stored.kind = entry.kind := by
  unfold ValueEntry.stored
  split <;> rfl

theorem stored_bytes (entry : ValueEntry) : entry.stored.bytes = entry.bytes := by
  unfold ValueEntry.stored
  split <;> rfl

theorem stored_stored (entry : ValueEntry) : entry.stored.stored = entry.stored := by
  by_cases hkind : entry.kind = .delta
  · simp [ValueEntry.stored, ValueEntry.plain, hkind, Function.comp_def]
  · simp [ValueEntry.stored, hkind]

theorem rawBytes_stored (entry : ValueEntry) : entry.stored.rawBytes = entry.rawBytes := by
  by_cases hkind : entry.kind = .delta
  · cases hdelta : entry.delta <;>
      simp [ValueEntry.rawBytes, ValueEntry.stored, ValueEntry.plain, hkind, hdelta,
        encodeDelta1Bytes]
  · simp [ValueEntry.rawBytes, ValueEntry.stored, hkind]

theorem encodeVsegEntry_stored (z : Zstd) (id : ValueId) (entry : ValueEntry) :
    encodeVsegEntry z id entry.stored = encodeVsegEntry z id entry := by
  rw [encodeVsegEntry, encodeVsegEntry, rawBytes_stored, stored_kind]

theorem ValueEntry.Storable.stored {entry : ValueEntry} (h : entry.Storable) :
    entry.stored.Storable := by
  refine ⟨by rw [stored_bytes]; exact h.bytes, fun delta hdelta => ?_⟩
  rw [stored_bytes]
  unfold ValueEntry.stored at hdelta
  split at hdelta
  · obtain ⟨d, hd, rfl⟩ := Option.map_eq_some_iff.mp hdelta
    exact h.delta d hd
  · cases hdelta

/-- The frames of a segment, over entries that fit a frame. -/
def segmentCodec (z : Zstd) (hz : z.Lossless) : StreamCodec ValueSegmentEntry ValueStoreError :=
  framed
    (fun e => e.entry.Storable ∧ e.entry.stored = e.entry ∧
      ∃ payload, encodeVsegEntry z e.id e.entry = .ok payload ∧ payload.length < 2 ^ 32)
    (fun e => (encodeVsegEntry z e.id e.entry).toOption.getD []) (decodeVsegEntry z) .format
    (by
      rintro e ⟨-, -, payload, hpayload, hlen⟩
      simpa [hpayload, Except.toOption] using hlen)
    (by
      rintro e ⟨hfit, hstored, payload, hpayload, -⟩
      simpa [hpayload, Except.toOption, hstored] using decodeVsegEntry_encode hz hfit hpayload)

/-- A pair of the store as a segment keeps it. -/
def storedEntry (e : ValueId × ValueEntry) : ValueSegmentEntry := ⟨e.1, e.2.stored⟩

/-- Appending an entry that encodes fails only beyond the size limits. -/
theorem append_eq {z : Zstd} (w : ValueSegmentWriter) {id : ValueId} {entry : ValueEntry}
    {payload : Bytes} (h : encodeVsegEntry z id entry = .ok payload) :
    w.append z id entry =
      if payload.length < 2 ^ 32 then
        if w.file.length + (recordFrame payload).length < 2 ^ 63 then
          .ok ⟨w.file ++ recordFrame payload⟩
        else .error (.io .fileTooLarge)
      else .error (.format (.recordFrameTooLarge payload.length)) := by
  rw [ValueSegmentWriter.append, h]
  simp only [bind, Except.bind]
  by_cases hlen : payload.length < 2 ^ 32
  · rw [if_pos hlen, appendRecordFrame, if_pos hlen, List.nil_append]
    simp only [Except.mapError]
    by_cases hfile : w.file.length + (recordFrame payload).length < 2 ^ 63
    · rw [fileAppend, if_pos hfile, if_pos hfile]
    · rw [fileAppend, if_neg hfile, if_neg hfile]
  · rw [if_neg hlen, appendRecordFrame, if_neg hlen]
    rfl

theorem append_ok {z : Zstd} (hz : z.Lossless) {w w' : ValueSegmentWriter}
    {e : ValueId × ValueEntry} (hfit : e.2.Storable) (h : w.append z e.1 e.2 = .ok w') :
    (segmentCodec z hz).Valid (storedEntry e) ∧
      w'.file = w.file ++ (segmentCodec z hz).encode (storedEntry e) := by
  cases hpayload : encodeVsegEntry z e.1 e.2 with
  | error err => simp [ValueSegmentWriter.append, hpayload, bind, Except.bind] at h
  | ok payload =>
    have hstored : encodeVsegEntry z e.1 e.2.stored = .ok payload := by
      rw [encodeVsegEntry_stored, hpayload]
    rw [append_eq w hpayload] at h
    split at h
    · rename_i hlen
      refine ⟨⟨hfit.stored, stored_stored e.2, payload, hstored, hlen⟩, ?_⟩
      split at h
      · cases h
        simp [segmentCodec, framed, storedEntry, hstored, Except.toOption]
      · cases h
    · cases h

theorem writeLoop_ok {z : Zstd} (hz : z.Lossless) {entries : List (ValueId × ValueEntry)}
    (hfit : ∀ e ∈ entries, e.2.Storable) {w w' : ValueSegmentWriter}
    (h : entries.foldlM (fun w e => w.append z e.1 e.2) w = .ok w') :
    (∀ e ∈ entries, (segmentCodec z hz).Valid (storedEntry e)) ∧
      w'.file = w.file ++ (segmentCodec z hz).encodeAll (entries.map storedEntry) := by
  induction entries generalizing w with
  | nil =>
    cases h
    simp
  | cons e entries ih =>
    rw [List.foldlM_cons] at h
    cases happend : w.append z e.1 e.2 with
    | error err => simp [happend, bind, Except.bind] at h
    | ok w1 =>
      rw [happend] at h
      obtain ⟨hvalid, hfile⟩ := append_ok hz (hfit e (by simp)) happend
      obtain ⟨hvalids, hfiles⟩ := ih (fun e he => hfit e (by simp [he])) h
      refine ⟨List.forall_mem_cons.mpr ⟨hvalid, hvalids⟩, ?_⟩
      rw [hfiles, hfile, List.map_cons, StreamCodec.encodeAll_cons, List.append_assoc]

/-- Writing entries that encode fails only beyond the size limits. -/
theorem writeLoop_error {z : Zstd} {entries : List (ValueId × ValueEntry)}
    (hencode : ∀ e ∈ entries, ∃ payload, encodeVsegEntry z e.1 e.2 = .ok payload)
    {w : ValueSegmentWriter} {err : ValueStoreError}
    (h : entries.foldlM (fun w e => w.append z e.1 e.2) w = .error err) :
    (∃ n, err = .format (.recordFrameTooLarge n)) ∨ err = .io .fileTooLarge := by
  induction entries generalizing w with
  | nil => cases h
  | cons e entries ih =>
    obtain ⟨payload, hpayload⟩ := hencode e (by simp)
    rw [List.foldlM_cons, append_eq w hpayload] at h
    split at h
    · split at h
      · exact ih (fun e he => hencode e (by simp [he])) h
      · cases h
        exact .inr rfl
    · cases h
      exact .inl ⟨_, rfl⟩

theorem create_eq (now : UInt64) :
    ValueSegmentWriter.create now = .ok ⟨(FileHeader.new .valSeg 0 now).encode⟩ := by
  rw [ValueSegmentWriter.create, fileAppend, if_pos (by simp [fileHeaderLen])]
  rfl

theorem writeAll_error {z : Zstd} {now : UInt64} {entries : List (ValueId × ValueEntry)}
    (hencode : ∀ e ∈ entries, ∃ payload, encodeVsegEntry z e.1 e.2 = .ok payload)
    {err : ValueStoreError} (h : ValueSegmentWriter.writeAll z now entries = .error err) :
    (∃ n, err = .format (.recordFrameTooLarge n)) ∨ err = .io .fileTooLarge := by
  unfold ValueSegmentWriter.writeAll at h
  rw [create_eq] at h
  simp only [bind, Except.bind] at h
  split at h
  · rename_i hloop
    cases h
    exact writeLoop_error hencode hloop
  · cases h

/-- The payloads of the entries, those that encode. -/
def segmentPayloads (z : Zstd) (entries : List (ValueId × ValueEntry)) : List Bytes :=
  entries.filterMap fun e => (encodeVsegEntry z e.1 e.2).toOption

/-- Every payload goes into a frame, and all of them into one file. -/
structure FitsSegment (z : Zstd) (entries : List (ValueId × ValueEntry)) : Prop where
  frame : ∀ payload ∈ segmentPayloads z entries, payload.length < 2 ^ 32
  file : fileHeaderLen + ((segmentPayloads z entries).map fun payload =>
    (recordFrame payload).length).sum < 2 ^ 63

theorem segmentPayloads_cons {z : Zstd} {e : ValueId × ValueEntry} {payload : Bytes}
    (h : encodeVsegEntry z e.1 e.2 = .ok payload) (entries : List (ValueId × ValueEntry)) :
    segmentPayloads z (e :: entries) = payload :: segmentPayloads z entries := by
  rw [segmentPayloads, List.filterMap_cons, h]
  rfl

/-- The frames are appended one after the other as long as there is room for them. -/
theorem writeLoop_ok_iff {z : Zstd} {entries : List (ValueId × ValueEntry)}
    (hencode : ∀ e ∈ entries, ∃ payload, encodeVsegEntry z e.1 e.2 = .ok payload)
    {w : ValueSegmentWriter} (hw : w.file.length < 2 ^ 63) :
    (∃ w', entries.foldlM (fun w e => w.append z e.1 e.2) w = .ok w') ↔
      (∀ payload ∈ segmentPayloads z entries, payload.length < 2 ^ 32) ∧
        w.file.length + ((segmentPayloads z entries).map fun payload =>
          (recordFrame payload).length).sum < 2 ^ 63 := by
  induction entries generalizing w with
  | nil => exact ⟨fun _ => ⟨fun _ h => absurd h List.not_mem_nil, hw⟩, fun _ => ⟨w, rfl⟩⟩
  | cons e entries ih =>
    obtain ⟨payload, hpayload⟩ := hencode e (by simp)
    rw [List.foldlM_cons, append_eq w hpayload, segmentPayloads_cons hpayload, List.forall_mem_cons,
      List.map_cons, List.sum_cons, ← Nat.add_assoc]
    by_cases hlen : payload.length < 2 ^ 32
    · rw [if_pos hlen]
      by_cases hfile : w.file.length + (recordFrame payload).length < 2 ^ 63
      · rw [if_pos hfile]
        have hstep := @ih (fun e he => hencode e (by simp [he])) ⟨w.file ++ recordFrame payload⟩
          (by rwa [List.length_append])
        rw [List.length_append] at hstep
        exact hstep.trans ⟨fun h => ⟨⟨hlen, h.1⟩, h.2⟩, fun h => ⟨h.1.2, h.2⟩⟩
      · rw [if_neg hfile]
        refine ⟨fun ⟨w', hw'⟩ => (by cases hw'), fun h => absurd h.2 ?_⟩
        omega
    · rw [if_neg hlen]
      exact ⟨fun ⟨w', hw'⟩ => (by cases hw'), fun h => absurd h.1.1 hlen⟩

/-- Entries that encode are written exactly if they fit. -/
theorem writeAll_ok_iff {z : Zstd} {now : UInt64} {entries : List (ValueId × ValueEntry)}
    (hencode : ∀ e ∈ entries, ∃ payload, encodeVsegEntry z e.1 e.2 = .ok payload) :
    (∃ file, ValueSegmentWriter.writeAll z now entries = .ok file) ↔ FitsSegment z entries := by
  have hheader : (FileHeader.new .valSeg 0 now).encode.length = fileHeaderLen :=
    FileHeader.encode_length _
  have hloop := @writeLoop_ok_iff z entries hencode ⟨(FileHeader.new .valSeg 0 now).encode⟩ (by
    rw [hheader]
    decide)
  rw [hheader] at hloop
  refine Iff.trans ?_ (hloop.trans ⟨fun h => ⟨h.1, h.2⟩, fun h => ⟨h.frame, h.file⟩⟩)
  unfold ValueSegmentWriter.writeAll
  rw [create_eq]
  simp only [bind, Except.bind]
  split
  · rename_i hloop
    rw [hloop]
    exact ⟨fun ⟨_, h⟩ => (by cases h), fun ⟨_, h⟩ => (by cases h)⟩
  · rename_i w hloop
    rw [hloop]
    exact ⟨fun _ => ⟨w, rfl⟩, fun _ => ⟨w.file, rfl⟩⟩

/-- Reading a written segment gives the entries as stored, in order. -/
theorem readSegment_writeAll {z : Zstd} (hz : z.Lossless) {now : UInt64}
    {entries : List (ValueId × ValueEntry)} (hfit : ∀ e ∈ entries, e.2.Storable) {file : Bytes}
    (h : ValueSegmentWriter.writeAll z now entries = .ok file) :
    validateVsegHeader file = .ok () ∧ readSegment z file = .ok (entries.map storedEntry) := by
  let header := FileHeader.new .valSeg 0 now
  have hheader : header.encode.length = fileHeaderLen := FileHeader.encode_length header
  unfold ValueSegmentWriter.writeAll at h
  rw [create_eq] at h
  simp only [bind, Except.bind] at h
  split at h
  · cases h
  rename_i w hw
  cases h
  obtain ⟨hvalid, hfile⟩ := writeLoop_ok hz hfit hw
  simp only at hfile
  have hdrop : w.file.drop fileHeaderLen =
      (segmentCodec z hz).encodeAll (entries.map storedEntry) := by
    rw [hfile, List.drop_left' hheader]
  constructor
  · have hdecode : FileHeader.decode (w.file.take fileHeaderLen) = .ok header := by
      rw [hfile, List.take_left' hheader, ← List.append_nil header.encode]
      exact FileHeader.decode_encode header [] rfl
    rw [validateVsegHeader, if_neg (by rw [hfile, List.length_append, hheader]; omega), hdecode]
    rfl
  · have hvalid' : ∀ e ∈ entries.map storedEntry, (segmentCodec z hz).Valid e := by
      intro e he
      obtain ⟨p, hp, rfl⟩ := List.mem_map.mp he
      exact hvalid p hp
    have hscan := StreamCodec.scan_encodeAll hvalid'
    rw [readSegment, hdrop]
    change (match ((segmentCodec z hz).scan _).stopped with
      | none => Except.ok ((segmentCodec z hz).scan _).records
      | some e => .error e) = _
    rw [hscan]

end SkeinDB.Values
