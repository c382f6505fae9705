import SkeinDB.Format.FileHeader

/-!
# Row versions

`skeindb-core/src/rowseg.rs`: file pointers, row versions and the RV1 payload of one
version. A version whose payload fits a record frame decodes to itself.
-/
namespace SkeinDB.Rows
open SkeinDB.Codec SkeinDB.Format

/-- `InvalidRecord` carries the source's own text. -/
inductive RowSegError
  | badHeader
  | invalidRecordType (recType : UInt8)
  | unsupportedRecordVersion (recVer : UInt8)
  | invalidGroupRefKind (kind : UInt8)
  | invalidRecord (what : String)
  | trailingRecordBytes
  | writerClosed
  | format (err : FormatError)
  | io (err : IoError)
  | core (err : CoreError)
  deriving DecidableEq, Repr

def rsegRecordType : UInt8 := 0x10

def rsegRecordVersion : UInt8 := 1

def rowFlagIsDelete : UInt16 := 0x0001

def groupRefInline : UInt8 := 0

def groupRefValueId : UInt8 := 1

def filePtrLen : ℕ := 12

def valueIdLen : ℕ := 16

/-- A pointer to a record inside a segment file; the default stands for no pointer. -/
structure FilePtr where
  fileId : UInt32
  offset : UInt64
  deriving DecidableEq, Repr

namespace FilePtr

def none : FilePtr := ⟨0, 0⟩

def isNone (p : FilePtr) : Bool := p.fileId == 0 && p.offset == 0

def encode (p : FilePtr) : Bytes := leBytes 4 p.fileId.toNat ++ leBytes 8 p.offset.toNat

def decode (bytes : Bytes) : Except RowSegError FilePtr :=
  if bytes.length < filePtrLen then .error (.invalidRecord "short FilePtr")
  else .ok ⟨UInt32.ofNat (leNat (bytes.take 4)), UInt64.ofNat (leNat ((bytes.drop 4).take 8))⟩

end FilePtr

inductive RowGroupRef
  | inline (bytes : Bytes)
  | valueId (id : ByteArr 16)
  deriving DecidableEq, Repr

structure RowGroup where
  groupId : UInt64
  data : RowGroupRef
  deriving DecidableEq, Repr

structure RowVersion where
  flags : UInt16
  tableId : UInt32
  rowId : UInt64
  beginTs : UInt64
  endTs : UInt64
  prevPtr : FilePtr
  groups : List RowGroup
  deriving DecidableEq, Repr

namespace RowVersion

def new (tableId : UInt32) (rowId beginTs : UInt64) (groups : List RowGroup) : RowVersion :=
  ⟨0, tableId, rowId, beginTs, 0, .none, groups⟩

def isDelete (row : RowVersion) : Bool := row.flags &&& rowFlagIsDelete != 0

end RowVersion

def RowGroup.encode (group : RowGroup) : Bytes :=
  encodeVaru group.groupId ++ match group.data with
    | .inline bytes => groupRefInline :: (encodeVaru (UInt64.ofNat bytes.length) ++ bytes)
    | .valueId id => groupRefValueId :: id.val

def RowVersion.encode (row : RowVersion) : Bytes :=
  [rsegRecordType, rsegRecordVersion] ++ (leBytes 2 row.flags.toNat ++
    (leBytes 4 row.tableId.toNat ++ (leBytes 8 row.rowId.toNat ++ (leBytes 8 row.beginTs.toNat ++
      (leBytes 8 row.endTs.toNat ++ (row.prevPtr.encode ++
        (encodeVaru (UInt64.ofNat row.groups.length) ++ row.groups.flatMap RowGroup.encode)))))))

/-- `take_u16`, `take_u32` and `take_u64`: the number and the bytes after it. -/
def takeLe (k : ℕ) (cursor : Bytes) (what : String) : Except RowSegError (ℕ × Bytes) :=
  if cursor.length < k then .error (.invalidRecord what)
  else .ok (leNat (cursor.take k), cursor.drop k)

def takeU16 (cursor : Bytes) (what : String) : Except RowSegError (UInt16 × Bytes) :=
  (takeLe 2 cursor what).map fun (n, rest) => (UInt16.ofNat n, rest)

def takeU32 (cursor : Bytes) (what : String) : Except RowSegError (UInt32 × Bytes) :=
  (takeLe 4 cursor what).map fun (n, rest) => (UInt32.ofNat n, rest)

def takeU64 (cursor : Bytes) (what : String) : Except RowSegError (UInt64 × Bytes) :=
  (takeLe 8 cursor what).map fun (n, rest) => (UInt64.ofNat n, rest)

/-- The data of one group, behind its kind byte. -/
def decodeGroupRef (kind : UInt8) (cursor : Bytes) : Except RowSegError (RowGroupRef × Bytes) :=
  if kind = groupRefInline then do
    let (len, cursor) ← (decodeVaru cursor).mapError .core
    if cursor.length < len.toNat then .error (.invalidRecord "short inline group bytes")
    else .ok (.inline (cursor.take len.toNat), cursor.drop len.toNat)
  else if kind = groupRefValueId then
    if h : cursor.length < valueIdLen then .error (.invalidRecord "short value_id")
    else .ok (.valueId (ByteArr.slice 16 0 cursor (by simp only [valueIdLen] at h; omega)),
      cursor.drop valueIdLen)
  else .error (.invalidGroupRefKind kind)

def decodeGroup (cursor : Bytes) : Except RowSegError (RowGroup × Bytes) := do
  let (groupId, cursor) ← (decodeVaru cursor).mapError .core
  match cursor with
  | [] => .error (.invalidRecord "missing group_ref_kind")
  | kind :: cursor =>
    let (data, cursor) ← decodeGroupRef kind cursor
    .ok (⟨groupId, data⟩, cursor)

def decodeGroups : ℕ → Bytes → Except RowSegError (List RowGroup × Bytes)
  | 0, cursor => .ok ([], cursor)
  | count + 1, cursor => do
    let (group, cursor) ← decodeGroup cursor
    let (groups, cursor) ← decodeGroups count cursor
    .ok (group :: groups, cursor)

def RowVersion.decode (payload : Bytes) : Except RowSegError RowVersion :=
  if payload.length < 2 then .error (.invalidRecord "short RV1 header")
  else if payload.getD 0 0 ≠ rsegRecordType then .error (.invalidRecordType (payload.getD 0 0))
  else if payload.getD 1 0 ≠ rsegRecordVersion then
    .error (.unsupportedRecordVersion (payload.getD 1 0))
  else do
    let (flags, cursor) ← takeU16 (payload.drop 2) "flags"
    let (tableId, cursor) ← takeU32 cursor "table_id"
    let (rowId, cursor) ← takeU64 cursor "row_id"
    let (beginTs, cursor) ← takeU64 cursor "begin_ts"
    let (endTs, cursor) ← takeU64 cursor "end_ts"
    if cursor.length < filePtrLen then .error (.invalidRecord "short prev_ptr")
    else
      let prevPtr ← FilePtr.decode (cursor.take filePtrLen)
      let (groupCount, cursor) ← (decodeVaru (cursor.drop filePtrLen)).mapError .core
      if 2 ^ 32 ≤ groupCount.toNat then .error (.invalidRecord "group_count too large")
      else
        let (groups, cursor) ← decodeGroups groupCount.toNat cursor
        if cursor ≠ [] then .error .trailingRecordBytes
        else .ok ⟨flags, tableId, rowId, beginTs, endTs, prevPtr, groups⟩

section RoundTrip

theorem takeLe_append {k n : ℕ} (rest : Bytes) (what : String) (h : n < 256 ^ k) :
    takeLe k (leBytes k n ++ rest) what = .ok (n, rest) := by
  have hlen : ¬ (leBytes k n ++ rest).length < k := by simp
  rw [takeLe, if_neg hlen, List.take_left' (leBytes_length k n),
    List.drop_left' (leBytes_length k n), leNat_leBytes k n h]

theorem takeU16_append (v : UInt16) (rest : Bytes) (what : String) :
    takeU16 (leBytes 2 v.toNat ++ rest) what = .ok (v, rest) := by
  rw [takeU16, takeLe_append rest what (by have := v.toNat_lt; omega)]
  simp [Except.map]

theorem takeU32_append (v : UInt32) (rest : Bytes) (what : String) :
    takeU32 (leBytes 4 v.toNat ++ rest) what = .ok (v, rest) := by
  rw [takeU32, takeLe_append rest what (by have := v.toNat_lt; omega)]
  simp [Except.map]

theorem takeU64_append (v : UInt64) (rest : Bytes) (what : String) :
    takeU64 (leBytes 8 v.toNat ++ rest) what = .ok (v, rest) := by
  rw [takeU64, takeLe_append rest what (by have := v.toNat_lt; omega)]
  simp [Except.map]

@[simp] theorem FilePtr.encode_length (p : FilePtr) : p.encode.length = filePtrLen := by
  simp [FilePtr.encode, filePtrLen]

theorem FilePtr.decode_encode (p : FilePtr) : FilePtr.decode p.encode = .ok p := by
  have hid : leNat (p.encode.take 4) = p.fileId.toNat := by
    rw [FilePtr.encode, List.take_left' (leBytes_length 4 _),
      leNat_leBytes 4 _ (by have := p.fileId.toNat_lt; omega)]
  have hoffset : leNat ((p.encode.drop 4).take 8) = p.offset.toNat := by
    rw [FilePtr.encode, List.drop_left' (leBytes_length 4 _),
      List.take_of_length_le (by simp), leNat_leBytes 8 _ (by have := p.offset.toNat_lt; omega)]
  rw [FilePtr.decode, if_neg (by simp), hid, hoffset]
  simp

theorem decodeGroup_append {group : RowGroup} (rest : Bytes)
    (h : ∀ bytes, group.data = .inline bytes → bytes.length < 2 ^ 64) :
    decodeGroup (group.encode ++ rest) = .ok (group, rest) := by
  obtain ⟨groupId, data⟩ := group
  cases data with
  | inline bytes =>
    have hlen : (UInt64.ofNat bytes.length).toNat = bytes.length := toNat_ofNat_of_lt (h bytes rfl)
    simp only [decodeGroup, RowGroup.encode, List.append_assoc, List.cons_append,
      decodeVaru_encodeVaru, Except.mapError, bind, Except.bind, decodeGroupRef, if_true, hlen]
    rw [if_neg (by simp), List.take_left' rfl, List.drop_left' rfl]
  | valueId id =>
    have hkind : groupRefValueId ≠ groupRefInline := by decide
    have hshort : ¬ (id.val ++ rest).length < valueIdLen := by
      simp [id.property, valueIdLen]
    have hslice (hl : 0 + 16 ≤ (id.val ++ rest).length) :
        ByteArr.slice 16 0 (id.val ++ rest) hl = id :=
      ByteArr.slice_append id [] rest (by simp) rfl hl
    simp only [decodeGroup, RowGroup.encode, List.append_assoc, List.cons_append,
      decodeVaru_encodeVaru, Except.mapError, bind, Except.bind, decodeGroupRef, hkind, if_false,
      if_true, hshort, dite_false, hslice]
    rw [List.drop_left' (by simp [valueIdLen, id.property])]

theorem decodeGroup_encode (group : RowGroup) (rest : Bytes) (h : group.encode.length < 2 ^ 64) :
    decodeGroup (group.encode ++ rest) = .ok (group, rest) := by
  refine decodeGroup_append rest fun bytes hbytes => ?_
  simp only [RowGroup.encode, hbytes, List.length_append, List.length_cons] at h
  omega

theorem decodeGroups_encode (groups : List RowGroup) (rest : Bytes)
    (h : (groups.flatMap RowGroup.encode).length < 2 ^ 64) :
    decodeGroups groups.length (groups.flatMap RowGroup.encode ++ rest) = .ok (groups, rest) := by
  induction groups with
  | nil => rfl
  | cons group groups ih =>
    rw [List.flatMap_cons, List.length_append] at h
    simp only [List.length_cons, decodeGroups, List.flatMap_cons, List.append_assoc]
    rw [decodeGroup_encode group _ (by omega)]
    simp only [bind, Except.bind]
    rw [ih (by omega)]

theorem RowGroup.encode_pos (group : RowGroup) : 0 < group.encode.length := by
  obtain ⟨groupId, data⟩ := group
  cases data with
  | inline bytes => simp [RowGroup.encode]
  | valueId id => simp [RowGroup.encode]

/-- A version whose payload fits a record frame decodes to itself. -/
theorem RowVersion.decode_encode (row : RowVersion) (h : row.encode.length < 2 ^ 32) :
    RowVersion.decode row.encode = .ok row := by
  have hgroups : (row.groups.flatMap RowGroup.encode).length < 2 ^ 32 := by
    simp only [RowVersion.encode, List.length_append] at h
    omega
  have hle := length_le_flatMap RowGroup.encode_pos row.groups
  have hcount : (UInt64.ofNat row.groups.length).toNat = row.groups.length := by
    exact toNat_ofNat_of_lt (by omega)
  have hloop := decodeGroups_encode row.groups [] (by omega)
  rw [List.append_nil] at hloop
  unfold RowVersion.decode
  rw [if_neg (by simp [RowVersion.encode]), if_neg (by simp [RowVersion.encode]),
    if_neg (by simp [RowVersion.encode])]
  simp only [RowVersion.encode, List.cons_append, List.nil_append, List.drop_succ_cons,
    List.drop_zero, takeU16_append, takeU32_append, takeU64_append, bind, Except.bind]
  rw [if_neg (by simp), List.take_left' row.prevPtr.encode_length,
    List.drop_left' row.prevPtr.encode_length, FilePtr.decode_encode]
  simp only [decodeVaru_encodeVaru, Except.mapError, hcount]
  rw [if_neg (by omega), hloop]
  simp

end RoundTrip

section Unambiguous

/-- A `Vec` holds at most `isize::MAX` bytes. -/
def RowGroup.Held (group : RowGroup) : Prop :=
  ∀ bytes, group.data = .inline bytes → bytes.length < 2 ^ 63

/-- A version whose groups and inline bytes are in vectors. -/
structure RowVersion.Held (row : RowVersion) : Prop where
  groups : row.groups.length < 2 ^ 63
  inline : ∀ group ∈ row.groups, group.Held

def takePtr : Reader RowSegError FilePtr := fun cursor =>
  if cursor.length < filePtrLen then .error (.invalidRecord "short prev_ptr")
  else .ok (⟨UInt32.ofNat (leNat (cursor.take 4)), UInt64.ofNat (leNat ((cursor.drop 4).take 8))⟩,
    cursor.drop filePtrLen)

/-- The record type and version in front of a version. -/
def takeHeader : Reader RowSegError Unit := fun payload =>
  if payload.length < 2 then .error (.invalidRecord "short RV1 header")
  else if payload.getD 0 0 ≠ rsegRecordType then .error (.invalidRecordType (payload.getD 0 0))
  else if payload.getD 1 0 ≠ rsegRecordVersion then
    .error (.unsupportedRecordVersion (payload.getD 1 0))
  else .ok ((), payload.drop 2)

def takeGroupCount : Reader RowSegError UInt64 := fun cursor => (decodeVaru cursor).mapError .core

def takeGroups : Reader RowSegError (List RowGroup) :=
  takeGroupCount.andThen fun groupCount cursor =>
    if 2 ^ 32 ≤ groupCount.toNat then .error (.invalidRecord "group_count too large")
    else decodeGroups groupCount.toNat cursor

/-- `RowVersion::decode` up to its check that no bytes are left. -/
def RowVersion.read : Reader RowSegError RowVersion :=
  takeHeader.andThen fun _ => Reader.andThen (takeU16 · "flags") fun flags =>
  Reader.andThen (takeU32 · "table_id") fun tableId =>
  Reader.andThen (takeU64 · "row_id") fun rowId =>
  Reader.andThen (takeU64 · "begin_ts") fun beginTs =>
  Reader.andThen (takeU64 · "end_ts") fun endTs => takePtr.andThen fun prevPtr =>
  takeGroups.andThen fun groups cursor =>
    .ok (⟨flags, tableId, rowId, beginTs, endTs, prevPtr, groups⟩, cursor)

theorem takeLe_local (k : ℕ) (what : String) : Reader.Local (takeLe k · what) := by
  refine Reader.Local.split k _ fun bytes more h => ?_
  rw [List.take_append_of_le_length h]

theorem takeHeader_local : takeHeader.Local := by
  intro payload a rest more h
  unfold takeHeader at h ⊢
  rcases payload with _ | ⟨b, _ | ⟨b', payload⟩⟩
  · cases h
  · cases h
  · by_cases htype : b = rsegRecordType
    · by_cases hversion : b' = rsegRecordVersion
      · subst htype hversion
        cases h
        rfl
      · simp [htype, hversion] at h
    · simp [htype] at h

theorem takePtr_local : takePtr.Local := by
  refine Reader.Local.split filePtrLen _ fun bytes more h => ?_
  have hid : 4 ≤ bytes.length := le_trans (by decide) h
  have hoffset : 8 ≤ (bytes.drop 4).length := by
    rw [filePtrLen] at h
    rw [List.length_drop]
    omega
  rw [List.take_append_of_le_length hid, List.drop_append_of_le_length hid,
    List.take_append_of_le_length hoffset]

theorem decodeGroupRef_local (kind : UInt8) : Reader.Local (decodeGroupRef kind) := by
  intro cursor data rest more h
  by_cases hinline : kind = groupRefInline
  · rw [decodeGroupRef, if_pos hinline] at h ⊢
    obtain ⟨⟨len, cursor'⟩, hlen, h⟩ := bind_eq_ok h
    have hlen' := decodeVaru_local.mapError RowSegError.core _ _ _ more hlen
    have htake := @Reader.Local.split _ _ len.toNat
      (RowSegError.invalidRecord "short inline group bytes")
      (fun bytes : Bytes => RowGroupRef.inline (bytes.take len.toNat)) fun bytes more h => by
        rw [List.take_append_of_le_length h]
    exact (congrArg (· >>= _) hlen').trans (htake _ _ _ more h)
  · rw [decodeGroupRef, if_neg hinline] at h ⊢
    by_cases hvalueId : kind = groupRefValueId
    · rw [if_pos hvalueId] at h ⊢
      by_cases hshort : cursor.length < valueIdLen
      · rw [dif_pos hshort] at h
        cases h
      · have hlong : ¬ (cursor ++ more).length < valueIdLen := by
          rw [List.length_append]
          omega
        rw [dif_neg hshort] at h
        cases h
        rw [dif_neg hlong, List.drop_append_of_le_length (not_lt.mp hshort)]
        congr 3
        apply Subtype.ext
        exact List.take_append_of_le_length (not_lt.mp hshort)
    · rw [if_neg hvalueId] at h
      cases h

theorem decodeGroup_local : Reader.Local decodeGroup := by
  intro cursor group rest more h
  obtain ⟨⟨groupId, cursor'⟩, hid, h⟩ := bind_eq_ok h
  have hid' := decodeVaru_local.mapError RowSegError.core _ _ _ more hid
  refine (congrArg (· >>= _) hid').trans ?_
  rcases cursor' with _ | ⟨kind, cursor'⟩
  · cases h
  · exact (decodeGroupRef_local kind).map (RowGroup.mk groupId) _ _ _ more h

theorem decodeGroups_local (count : ℕ) : Reader.Local (decodeGroups count) := by
  induction count with
  | zero => exact Reader.Local.pure []
  | succ count ih =>
    exact decodeGroup_local.andThen fun group => ih.andThen fun groups => Reader.Local.pure _

theorem takeU16_local (what : String) : Reader.Local (takeU16 · what) :=
  (takeLe_local 2 what).map UInt16.ofNat

theorem takeU32_local (what : String) : Reader.Local (takeU32 · what) :=
  (takeLe_local 4 what).map UInt32.ofNat

theorem takeU64_local (what : String) : Reader.Local (takeU64 · what) :=
  (takeLe_local 8 what).map UInt64.ofNat

theorem takeGroups_local : takeGroups.Local := by
  refine Reader.Local.andThen (decodeVaru_local.mapError _) fun groupCount => ?_
  by_cases hmany : 2 ^ 32 ≤ groupCount.toNat
  · simp only [hmany, if_true]
    exact Reader.Local.error _
  · simp only [hmany, if_false]
    exact decodeGroups_local _

theorem RowVersion.read_local : RowVersion.read.Local := by
  refine takeHeader_local.andThen fun _ => (takeU16_local _).andThen fun _ => ?_
  refine (takeU32_local _).andThen fun _ => (takeU64_local _).andThen fun _ => ?_
  refine (takeU64_local _).andThen fun _ => (takeU64_local _).andThen fun _ => ?_
  exact takePtr_local.andThen fun _ => takeGroups_local.andThen fun _ => Reader.Local.pure _

theorem takePtr_bind {β : Type} (cursor : Bytes) (next : FilePtr × Bytes → Except RowSegError β) :
    takePtr cursor >>= next =
      if cursor.length < filePtrLen then .error (.invalidRecord "short prev_ptr")
      else FilePtr.decode (cursor.take filePtrLen) >>= fun ptr =>
        next (ptr, cursor.drop filePtrLen) := by
  rw [takePtr]
  split_ifs with hshort
  · rfl
  · have hlen : ¬ (cursor.take filePtrLen).length < filePtrLen := by
      rw [List.length_take]
      omega
    rw [FilePtr.decode, if_neg hlen]
    simp [filePtrLen, List.take_take, List.drop_take, bind, Except.bind]

/-- Decoding reads a version and then finds no byte left. -/
theorem RowVersion.decode_eq (payload : Bytes) :
    RowVersion.decode payload = RowVersion.read payload >>= fun taken =>
      if taken.2 ≠ [] then .error .trailingRecordBytes else .ok taken.1 := by
  rw [RowVersion.read, Reader.andThen_bind, RowVersion.decode, takeHeader]
  split_ifs
  · rfl
  · rfl
  · rfl
  change _ = Reader.andThen _ _ _ >>= _
  rw [Reader.andThen_bind]
  refine bind_congr fun flags => ?_
  rw [Reader.andThen_bind]
  refine bind_congr fun tableId => ?_
  rw [Reader.andThen_bind]
  refine bind_congr fun rowId => ?_
  rw [Reader.andThen_bind]
  refine bind_congr fun beginTs => ?_
  rw [Reader.andThen_bind]
  refine bind_congr fun endTs => ?_
  rw [Reader.andThen_bind, takePtr_bind]
  refine if_congr Iff.rfl rfl (bind_congr fun prevPtr => ?_)
  rw [Reader.andThen_bind, takeGroups, Reader.andThen_bind]
  refine bind_congr ?_
  rintro ⟨groupCount, cursor⟩
  by_cases hmany : 2 ^ 32 ≤ groupCount.toNat
  · simp only [if_pos hmany]
    rfl
  · simp only [if_neg hmany]
    refine bind_congr fun groups => ?_
    rfl

theorem decodeGroups_held {groups : List RowGroup} (rest : Bytes) (h : ∀ g ∈ groups, g.Held) :
    decodeGroups groups.length (groups.flatMap RowGroup.encode ++ rest) = .ok (groups, rest) := by
  induction groups with
  | nil => rfl
  | cons group groups ih =>
    simp only [List.length_cons, decodeGroups, List.flatMap_cons, List.append_assoc]
    rw [decodeGroup_append _ fun bytes hbytes => (h group (by simp) bytes hbytes).trans (by norm_num)]
    simp only [bind, Except.bind]
    rw [ih fun g hg => h g (by simp [hg])]

theorem takePtr_encode (ptr : FilePtr) (rest : Bytes) :
    takePtr (ptr.encode ++ rest) = .ok (ptr, rest) := by
  have htake : (ptr.encode ++ rest).take filePtrLen = ptr.encode := List.take_left' ptr.encode_length
  have hdrop : (ptr.encode ++ rest).drop filePtrLen = rest := List.drop_left' ptr.encode_length
  have hread := takePtr_bind (ptr.encode ++ rest) Except.ok
  rw [if_neg (by simp), htake, hdrop, FilePtr.decode_encode] at hread
  rw [← bind_pure (takePtr (ptr.encode ++ rest))]
  exact hread

/-- A version is read back whatever follows it, if its groups can be counted in 32 bits. -/
theorem RowVersion.read_encode {row : RowVersion} (h : row.Held) (rest : Bytes) :
    RowVersion.read (row.encode ++ rest) =
      if row.groups.length < 2 ^ 32 then .ok (row, rest)
      else .error (.invalidRecord "group_count too large") := by
  have hcount : (UInt64.ofNat row.groups.length).toNat = row.groups.length :=
    toNat_ofNat_of_lt (h.groups.trans (by norm_num))
  have hgroups : takeGroups (encodeVaru (UInt64.ofNat row.groups.length) ++
      (row.groups.flatMap RowGroup.encode ++ rest)) =
      if row.groups.length < 2 ^ 32 then .ok (row.groups, rest)
      else .error (.invalidRecord "group_count too large") := by
    rw [takeGroups, Reader.andThen, takeGroupCount, decodeVaru_encodeVaru]
    simp only [Except.mapError, bind, Except.bind, hcount]
    rw [decodeGroups_held rest h.inline]
    split_ifs <;> first | rfl | omega
  have hheader : takeHeader (row.encode ++ rest) = .ok ((), (row.encode ++ rest).drop 2) := by
    rw [takeHeader, if_neg (by simp [RowVersion.encode]), if_neg (by simp [RowVersion.encode]),
      if_neg (by simp [RowVersion.encode])]
  rw [RowVersion.read, Reader.andThen, hheader]
  simp only [RowVersion.encode, List.cons_append, List.nil_append, List.append_assoc,
    List.drop_succ_cons, List.drop_zero, bind, Except.bind, Reader.andThen, takeU16_append,
    takeU32_append, takeU64_append, takePtr_encode, hgroups]
  split_ifs <;> rfl

theorem RowVersion.decode_of_read {payload rest : Bytes} {row : RowVersion}
    (h : RowVersion.read payload = .ok (row, rest)) :
    RowVersion.decode payload = if rest ≠ [] then .error .trailingRecordBytes else .ok row := by
  rw [RowVersion.decode_eq, h]
  rfl

theorem RowVersion.decode_whole {row : RowVersion} (h : row.Held) :
    RowVersion.decode row.encode = if row.groups.length < 2 ^ 32 then .ok row
      else .error (.invalidRecord "group_count too large") := by
  have hread := RowVersion.read_encode h []
  rw [List.append_nil] at hread
  rw [RowVersion.decode_eq, hread]
  split_ifs
  · rfl
  · rfl

theorem RowVersion.read_of_decode {payload : Bytes} {row : RowVersion}
    (h : RowVersion.decode payload = .ok row) : RowVersion.read payload = .ok (row, []) := by
  rw [RowVersion.decode_eq] at h
  obtain ⟨⟨row', rest⟩, hread, h⟩ := bind_eq_ok h
  rw [hread]
  by_cases hrest : rest = []
  · simp only [hrest, ne_eq, not_true_eq_false, if_false] at h
    rw [Except.ok.inj h, hrest]
  · simp only [ne_eq, hrest, not_false_eq_true, if_true] at h
    cases h

theorem RowVersion.decode_prefix {row : RowVersion} (h : row.Held) {part : Bytes}
    (hpart : part <+: row.encode) (hstrict : part ≠ row.encode) :
    ∃ e, RowVersion.decode part = .error e := by
  rcases hdecode : RowVersion.decode part with e | row'
  · exact ⟨e, rfl⟩
  · have hcut := RowVersion.read_of_decode hdecode
    obtain ⟨more, hwhole, hread⟩ := RowVersion.read_local.of_prefix hcut hpart
    have hencode := RowVersion.read_encode h []
    rw [List.append_nil, hread] at hencode
    split_ifs at hencode
    have hmore : more = [] := (Prod.mk.inj (Except.ok.inj hencode)).2
    rw [hmore, List.append_nil] at hwhole
    exact absurd hwhole.symm hstrict

theorem RowVersion.decode_extension {row : RowVersion} (h : row.Held) {more : Bytes}
    (hmore : more ≠ []) : ∃ e, RowVersion.decode (row.encode ++ more) = .error e := by
  have hread := RowVersion.read_encode h more
  split_ifs at hread
  · exact ⟨_, (RowVersion.decode_of_read hread).trans (if_pos hmore)⟩
  · rw [RowVersion.decode_eq, hread]
    exact ⟨_, rfl⟩

/-- What a version is written as is read as that version when its groups can be counted in 32
bits, and nothing that starts or extends it is read as a version. -/
theorem RowVersion.codec_unambiguous {row : RowVersion} (h : row.Held) :
    (RowVersion.decode row.encode = if row.groups.length < 2 ^ 32 then .ok row
      else .error (.invalidRecord "group_count too large")) ∧
    (∀ part, part <+: row.encode → part ≠ row.encode → ∃ e, RowVersion.decode part = .error e) ∧
    ∀ more, more ≠ [] → ∃ e, RowVersion.decode (row.encode ++ more) = .error e :=
  ⟨RowVersion.decode_whole h, fun _ => RowVersion.decode_prefix h,
    fun _ => RowVersion.decode_extension h⟩

/-- A deletion with a group of each kind. -/
def RowVersion.sample : RowVersion :=
  ⟨rowFlagIsDelete, 7, 42, 100, 200, ⟨3, 64⟩,
    [⟨0, .inline [1, 2, 3]⟩, ⟨300, .valueId ⟨List.replicate 16 0xAB, rfl⟩⟩]⟩

theorem RowVersion.sample_held : RowVersion.sample.Held := by
  constructor
  · decide
  · intro group hgroup bytes hbytes
    simp only [RowVersion.sample, List.mem_cons, List.not_mem_nil, or_false] at hgroup
    rcases hgroup with rfl | rfl
    · cases hbytes
      decide
    · cases hbytes

theorem RowVersion.codec_unambiguous_sample :
    RowVersion.decode RowVersion.sample.encode = .ok RowVersion.sample ∧
      ∃ e, RowVersion.decode (RowVersion.sample.encode ++ [0]) = .error e :=
  ⟨(RowVersion.codec_unambiguous RowVersion.sample_held).1.trans (if_pos (by decide)),
    (RowVersion.codec_unambiguous RowVersion.sample_held).2.2 [0] (List.cons_ne_nil _ _)⟩

/-- A version with 2 ^ 32 groups is written and not read. -/
theorem RowVersion.uncountable_groups :
    RowVersion.decode (RowVersion.new 7 42 100 (List.replicate (2 ^ 32) ⟨0, .inline []⟩)).encode =
      .error (.invalidRecord "group_count too large") := by
  have hheld : (RowVersion.new 7 42 100 (List.replicate (2 ^ 32) ⟨0, .inline []⟩)).Held := by
    constructor
    · rw [RowVersion.new, List.length_replicate]
      norm_num
    · intro group hgroup bytes hbytes
      rw [List.eq_of_mem_replicate hgroup] at hbytes
      cases hbytes
      exact Nat.two_pow_pos 63
  rw [RowVersion.decode_whole hheld, RowVersion.new, List.length_replicate, if_neg (lt_irrefl _)]

end Unambiguous

end SkeinDB.Rows
