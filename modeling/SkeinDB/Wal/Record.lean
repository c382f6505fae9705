import SkeinDB.Format.FileHeader

/-!
# WAL records

`skeindb-core/src/wal.rs`: the record vocabulary of the write-ahead log and its
byte encoding. A record built by one of the constructors decodes to itself.
-/
namespace SkeinDB.Wal
open SkeinDB.Codec SkeinDB.Format

inductive WalHeaderVersion
  | v1
  | v2
  deriving DecidableEq, Repr

def WalHeaderVersion.toU8 : WalHeaderVersion → UInt8
  | .v1 => 1
  | .v2 => 2

structure WalHeaderV1 where
  recType : UInt8
  recVer : WalHeaderVersion
  flags : UInt16
  lsn : UInt64
  txnId : UInt64
  deriving DecidableEq, Repr

structure WalHeaderV2 where
  v1 : WalHeaderV1
  prevHash : ByteArr 32
  recHash : ByteArr 32
  deriving DecidableEq, Repr

inductive WalRecordKind
  | beginTxn
  | mutation
  | commitTxn
  | abortTxn
  deriving DecidableEq, Repr

def WalRecordKind.toU8 : WalRecordKind → UInt8
  | .beginTxn => 0x01
  | .mutation => 0x02
  | .commitTxn => 0x03
  | .abortTxn => 0x04

inductive WalError
  | badHeader
  | unknownRecordType (recType : UInt8)
  | unsupportedRecordVersion (version : UInt8)
  | trailingBytes (len : ℕ)
  | format (err : FormatError)
  | io (err : IoError)
  deriving DecidableEq, Repr

def WalError.core : CoreError → WalError
  | .unexpectedEof => .format .unexpectedEof
  | .invalidVarint => .trailingBytes 0

def WalRecordKind.fromU8 (v : UInt8) : Except WalError WalRecordKind :=
  if v = 0x01 then .ok .beginTxn
  else if v = 0x02 then .ok .mutation
  else if v = 0x03 then .ok .commitTxn
  else if v = 0x04 then .ok .abortTxn
  else .error (.unknownRecordType v)

inductive WalRecordBody
  | beginTxn
  | mutation (payload : Bytes)
  | commitTxn
  | abortTxn
  deriving DecidableEq, Repr

def WalRecordBody.kind : WalRecordBody → WalRecordKind
  | .beginTxn => .beginTxn
  | .mutation _ => .mutation
  | .commitTxn => .commitTxn
  | .abortTxn => .abortTxn

inductive WalRecordHeader
  | v1 (h : WalHeaderV1)
  | v2 (h : WalHeaderV2)
  deriving DecidableEq, Repr

/-- The fields both header versions start with. -/
def WalRecordHeader.common : WalRecordHeader → WalHeaderV1
  | .v1 h => h
  | .v2 h => h.v1

structure WalRecord where
  header : WalRecordHeader
  body : WalRecordBody
  deriving DecidableEq, Repr

def walHeaderV1Len : ℕ := 20

def walHeaderV2Len : ℕ := walHeaderV1Len + 32 + 32

namespace WalRecord

def newV1 (body : WalRecordBody) (txnId : UInt64) (flags : UInt16) (lsn : UInt64) : WalRecord :=
  ⟨.v1 ⟨body.kind.toU8, .v1, flags, lsn, txnId⟩, body⟩

def newV2 (body : WalRecordBody) (txnId : UInt64) (flags : UInt16) (lsn : UInt64)
    (prevHash recHash : ByteArr 32) : WalRecord :=
  ⟨.v2 ⟨⟨body.kind.toU8, .v2, flags, lsn, txnId⟩, prevHash, recHash⟩, body⟩

def beginV1 (txnId : UInt64) : WalRecord := newV1 .beginTxn txnId 0 0

def mutationV1 (txnId : UInt64) (payload : Bytes) : WalRecord := newV1 (.mutation payload) txnId 0 0

def commitV1 (txnId : UInt64) : WalRecord := newV1 .commitTxn txnId 0 0

def abortV1 (txnId : UInt64) : WalRecord := newV1 .abortTxn txnId 0 0

def withLsn (r : WalRecord) (lsn : UInt64) : WalRecord :=
  match r.header with
  | .v1 h => { r with header := .v1 { h with lsn := lsn } }
  | .v2 h => { r with header := .v2 { h with v1 := { h.v1 with lsn := lsn } } }

def withFlags (r : WalRecord) (flags : UInt16) : WalRecord :=
  match r.header with
  | .v1 h => { r with header := .v1 { h with flags := flags } }
  | .v2 h => { r with header := .v2 { h with v1 := { h.v1 with flags := flags } } }

def lsn (r : WalRecord) : UInt64 := r.header.common.lsn

def txnId (r : WalRecord) : UInt64 := r.header.common.txnId

def flags (r : WalRecord) : UInt16 := r.header.common.flags

def kind (r : WalRecord) : WalRecordKind := r.body.kind

/-- The record type and version stored in the header are those of its body and variant.
Every constructor builds such a record, and `withLsn` and `withFlags` keep it one. -/
def WellFormed (r : WalRecord) : Prop :=
  match r.header with
  | .v1 h => h.recType = r.body.kind.toU8 ∧ h.recVer = .v1
  | .v2 h => h.v1.recType = r.body.kind.toU8 ∧ h.v1.recVer = .v2

def encodeCommon (kind : WalRecordKind) (h : WalHeaderV1) : Bytes :=
  [kind.toU8, h.recVer.toU8] ++ leBytes 2 h.flags.toNat ++ leBytes 8 h.lsn.toNat ++
    leBytes 8 h.txnId.toNat

def encodeHeader (r : WalRecord) : Bytes :=
  match r.header with
  | .v1 h => encodeCommon r.body.kind h
  | .v2 h => encodeCommon r.body.kind h.v1 ++ h.prevHash.val ++ h.recHash.val

def encodeBody (r : WalRecord) : Bytes :=
  match r.body with
  | .beginTxn | .commitTxn | .abortTxn => []
  | .mutation payload => encodeVaru (UInt64.ofNat payload.length) ++ payload

/-- `WalRecord::encode`, which never fails. -/
def encode (r : WalRecord) : Bytes := r.encodeHeader ++ r.encodeBody

/-- The body of a record of the given kind, from the bytes after the header. -/
def decodeBody (kind : WalRecordKind) (rest : Bytes) : Except WalError (WalRecordBody × Bytes) :=
  match kind with
  | .beginTxn => .ok (.beginTxn, rest)
  | .commitTxn => .ok (.commitTxn, rest)
  | .abortTxn => .ok (.abortTxn, rest)
  | .mutation =>
    match decodeVaru rest with
    | .error e => .error (.core e)
    | .ok (len, rest) =>
      if rest.length < len.toNat then .error (.format .unexpectedEof)
      else .ok (.mutation (rest.take len.toNat), rest.drop len.toNat)

/-- `u64_from_le`. -/
def u64FromLe (bytes : Bytes) (offset : ℕ) : Except WalError UInt64 :=
  (u64Le bytes offset).mapError .format

/-- The header of a record and the bytes after it. -/
def decodeHeader (payload : Bytes) : Except WalError (WalRecordHeader × Bytes) := do
  let recType := payload.getD 0 0
  let flags := UInt16.ofNat (leNat [payload.getD 2 0, payload.getD 3 0])
  match payload.getD 1 0 with
  | 1 =>
    let lsn ← u64FromLe payload 4
    let txnId ← u64FromLe payload 12
    .ok (.v1 ⟨recType, .v1, flags, lsn, txnId⟩, payload.drop walHeaderV1Len)
  | 2 =>
    let lsn ← u64FromLe payload 4
    let txnId ← u64FromLe payload 12
    if hshort : payload.length < walHeaderV2Len then .error (.format .unexpectedEof)
    else
      have hlen : 52 + 32 ≤ payload.length := by
        simp only [walHeaderV2Len, walHeaderV1Len] at hshort
        omega
      let prevHash := ByteArr.slice 32 20 payload (by omega)
      let recHash := ByteArr.slice 32 52 payload hlen
      .ok (.v2 ⟨⟨recType, .v2, flags, lsn, txnId⟩, prevHash, recHash⟩, payload.drop walHeaderV2Len)
  | other => .error (.unsupportedRecordVersion other)

def decode (payload : Bytes) : Except WalError WalRecord := do
  if payload.length < walHeaderV1Len then .error (.format .unexpectedEof)
  else
    let kind ← WalRecordKind.fromU8 (payload.getD 0 0)
    let (header, rest) ← decodeHeader payload
    let (body, rest) ← decodeBody kind rest
    if rest ≠ [] then .error (.trailingBytes rest.length)
    else .ok ⟨header, body⟩

@[simp] theorem withLsn_lsn (r : WalRecord) (lsn : UInt64) : (r.withLsn lsn).lsn = lsn := by
  obtain ⟨header, body⟩ := r
  cases header <;> rfl

theorem WellFormed.withLsn {r : WalRecord} (h : r.WellFormed) (lsn : UInt64) :
    (r.withLsn lsn).WellFormed := by
  obtain ⟨header, body⟩ := r
  cases header <;> exact h

theorem newV1_wellFormed (body : WalRecordBody) (txnId : UInt64) (flags : UInt16) (lsn : UInt64) :
    (newV1 body txnId flags lsn).WellFormed := ⟨rfl, rfl⟩

theorem kind_fromU8_toU8 (kind : WalRecordKind) : WalRecordKind.fromU8 kind.toU8 = .ok kind := by
  cases kind <;> rfl

@[simp] theorem encodeCommon_length (kind : WalRecordKind) (h : WalHeaderV1) :
    (encodeCommon kind h).length = walHeaderV1Len := by
  simp [encodeCommon, walHeaderV1Len]

/-- The fields every header version shares read back, whatever follows them. -/
theorem common_fields (kind : WalRecordKind) (h : WalHeaderV1) (rest : Bytes) :
    let payload := encodeCommon kind h ++ rest
    payload.getD 0 0 = kind.toU8 ∧ payload.getD 1 0 = h.recVer.toU8 ∧
      UInt16.ofNat (leNat [payload.getD 2 0, payload.getD 3 0]) = h.flags ∧
      u64FromLe payload 4 = .ok h.lsn ∧ u64FromLe payload 12 = .ok h.txnId := by
  have hflags : leNat (leBytes 2 h.flags.toNat) = h.flags.toNat :=
    leNat_leBytes 2 _ (by have := h.flags.toNat_lt; omega)
  have hlsn : u64Le (encodeCommon kind h ++ rest) 4 = .ok h.lsn :=
    u64Le_append ([kind.toU8, h.recVer.toU8] ++ leBytes 2 h.flags.toNat)
      (leBytes 8 h.txnId.toNat ++ rest) (by simp [encodeCommon]) (by simp)
  have htxn : u64Le (encodeCommon kind h ++ rest) 12 = .ok h.txnId :=
    u64Le_append ([kind.toU8, h.recVer.toU8] ++ leBytes 2 h.flags.toNat ++ leBytes 8 h.lsn.toNat)
      rest (by simp [encodeCommon]) (by simp)
  refine ⟨by simp [encodeCommon], by simp [encodeCommon], ?_, by rw [u64FromLe, hlsn]; rfl,
    by rw [u64FromLe, htxn]; rfl⟩
  have hbytes : [(encodeCommon kind h ++ rest).getD 2 0, (encodeCommon kind h ++ rest).getD 3 0] =
      leBytes 2 h.flags.toNat := by
    simp [encodeCommon, leBytes]
  rw [hbytes, hflags]
  simp

/-- The header of a well-formed record is read back, and the body bytes are left. -/
theorem decodeHeader_encode {r : WalRecord} (h : r.WellFormed) :
    decodeHeader r.encode = .ok (r.header, r.encodeBody) := by
  obtain ⟨header, body⟩ := r
  cases header with
  | v1 h1 =>
    obtain ⟨htype, hver⟩ := h
    obtain ⟨h0, h1', hflags, hlsn, htxn⟩ := common_fields body.kind h1 (encodeBody ⟨.v1 h1, body⟩)
    have hdrop : (encodeCommon body.kind h1 ++ encodeBody ⟨.v1 h1, body⟩).drop walHeaderV1Len =
        encodeBody ⟨.v1 h1, body⟩ := List.drop_left' (encodeCommon_length _ _)
    rw [hver] at h1'
    simp only [encode, encodeHeader, decodeHeader, h0, h1', hflags, hlsn, htxn, hdrop,
      WalHeaderVersion.toU8, bind, Except.bind]
    rw [← hver, ← htype]
  | v2 h2 =>
    obtain ⟨htype, hver⟩ := h
    let r : WalRecord := ⟨.v2 h2, body⟩
    let rest := h2.prevHash.val ++ (h2.recHash.val ++ r.encodeBody)
    have hencode : r.encode = encodeCommon body.kind h2.v1 ++ rest := by
      simp [encode, encodeHeader, r, rest]
    obtain ⟨h0, h1', hflags, hlsn, htxn⟩ := common_fields body.kind h2.v1 rest
    have hprev := h2.prevHash.property
    have hrec := h2.recHash.property
    have hlen : ¬ (encodeCommon body.kind h2.v1 ++ rest).length < walHeaderV2Len := by
      simp only [rest, List.length_append, encodeCommon_length, walHeaderV2Len, hprev, hrec]
      omega
    have hslice1 (hl) : ByteArr.slice 32 20 (encodeCommon body.kind h2.v1 ++ rest) hl =
        h2.prevHash :=
      ByteArr.slice_append _ (encodeCommon body.kind h2.v1) (h2.recHash.val ++ r.encodeBody)
        rfl (by simp [walHeaderV1Len]) hl
    have hslice2 (hl) : ByteArr.slice 32 52 (encodeCommon body.kind h2.v1 ++ rest) hl =
        h2.recHash :=
      ByteArr.slice_append _ (encodeCommon body.kind h2.v1 ++ h2.prevHash.val) r.encodeBody
        (by simp [rest]) (by simp [walHeaderV1Len, hprev]) hl
    have hdrop : (encodeCommon body.kind h2.v1 ++ rest).drop walHeaderV2Len = r.encodeBody := by
      rw [show encodeCommon body.kind h2.v1 ++ rest =
        (encodeCommon body.kind h2.v1 ++ h2.prevHash.val ++ h2.recHash.val) ++ r.encodeBody from
          by simp [rest]]
      exact List.drop_left' (by simp [walHeaderV2Len, hprev, hrec])
    change decodeHeader r.encode = .ok (r.header, r.encodeBody)
    rw [hver] at h1'
    simp only [hencode, decodeHeader, h0, h1', hflags, hlsn, htxn, hslice1, hslice2, hdrop,
      WalHeaderVersion.toU8, bind, Except.bind, dif_neg hlen]
    rw [← hver, ← htype]

/-- The body of a record whose payload length fits a `u64` is read back. -/
theorem decodeBody_encodeBody (r : WalRecord) (hlen : r.encode.length < 2 ^ 64) :
    decodeBody r.body.kind r.encodeBody = .ok (r.body, []) := by
  obtain ⟨header, body⟩ := r
  cases body with
  | beginTxn => rfl
  | commitTxn => rfl
  | abortTxn => rfl
  | mutation payload =>
    have hpayload : (UInt64.ofNat payload.length).toNat = payload.length := by
      simp only [encode, encodeBody, List.length_append] at hlen
      simp only [UInt64.toNat_ofNat']
      omega
    simp only [WalRecordBody.kind, encodeBody, decodeBody, decodeVaru_encodeVaru, hpayload]
    simp

/-- A well-formed record that fits a frame decodes to itself. -/
theorem decode_encode {r : WalRecord} (h : r.WellFormed) (hlen : r.encode.length < 2 ^ 32) :
    decode r.encode = .ok r := by
  have hheader : walHeaderV1Len ≤ r.encode.length ∧ r.encode.getD 0 0 = r.body.kind.toU8 := by
    obtain ⟨header, body⟩ := r
    cases header with
    | v1 h1 => exact ⟨by simp [encode, encodeHeader], by simp [encode, encodeHeader, encodeCommon]⟩
    | v2 h2 => exact ⟨by simp [encode, encodeHeader], by simp [encode, encodeHeader, encodeCommon]⟩
  rw [decode, if_neg (by omega), hheader.2, kind_fromU8_toU8, decodeHeader_encode h]
  simp only [bind, Except.bind, decodeBody_encodeBody r (lt_trans hlen (by norm_num))]
  simp

end WalRecord

end SkeinDB.Wal
