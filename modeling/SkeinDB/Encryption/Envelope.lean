import SkeinDB.Format.Primitives

/-!
# Encryption envelopes

`skeindb-core/src/encryption.rs`: modes, contexts and the self-describing envelope of a
stored value. An envelope that fits in memory parses back from its stored bytes.
-/
namespace SkeinDB.Encryption
open SkeinDB.Codec SkeinDB.Format

/-- Databases, keys, tables and columns are named by strings. -/
abbrev Ident := List Char

/-- The characters that `str::trim` removes. -/
def isWhiteSpace (c : Char) : Bool :=
  let n := c.toNat
  (0x9 ≤ n && n ≤ 0xD) || n == 0x20 || n == 0x85 || n == 0xA0 || n == 0x1680 ||
    (0x2000 ≤ n && n ≤ 0x200A) || n == 0x2028 || n == 0x2029 || n == 0x202F || n == 0x205F ||
    n == 0x3000

def trim (s : Ident) : Ident :=
  ((s.dropWhile isWhiteSpace).reverse.dropWhile isWhiteSpace).reverse

def utf8 (s : Ident) : Bytes := s.flatMap String.utf8EncodeChar

def fromUtf8 (bytes : Bytes) : Option Ident :=
  bytes.toByteArray.utf8Decode?.map Array.toList

inductive EncryptionMode
  | off
  | encRandom
  | encMleDb
  deriving DecidableEq, Repr

def EncryptionMode.code : EncryptionMode → UInt8
  | .off => 0
  | .encRandom => 1
  | .encMleDb => 2

/-- The texts of the standard library's UTF-8 and entropy errors are left out. -/
inductive EncryptionError
  | invalidIdentifier (field : String)
  | unknownDatabase (dbId : Ident)
  | missingActiveKey (dbId : Ident)
  | missingKey (dbId keyId : Ident)
  | scopeMismatch (expected actual : Ident)
  | missingEnvelopeKeyId
  | missingNonce
  | missingDerivationSalt
  | aead
  | entropy
  | invalidEnvelope (what : String)
  deriving DecidableEq, Repr

def normalizeRequired (value : Ident) (field : String) : Except EncryptionError Ident :=
  if trim value = [] then .error (.invalidIdentifier field) else .ok (trim value)

structure EncryptionContext where
  dbId : Ident
  tableId : Ident
  columnId : Ident
  valueKind : ValueKind
  codecVersion : UInt32
  deriving DecidableEq, Repr

def aadLabel : Ident := "skeindb-encryption-aad-v1".toList

def EncryptionContext.aadBytes (ctx : EncryptionContext) : Except EncryptionError Bytes := do
  let dbId ← normalizeRequired ctx.dbId "db_id"
  .ok (lenPrefixed (utf8 aadLabel) ++ lenPrefixed (utf8 dbId) ++
    lenPrefixed (utf8 (trim ctx.tableId)) ++ lenPrefixed (utf8 (trim ctx.columnId)) ++
    [ctx.valueKind.toU8] ++ leBytes 4 ctx.codecVersion.toNat)

structure EncryptionEnvelope where
  version : UInt8
  mode : EncryptionMode
  scopeId : Ident
  keyId : Option Ident
  nonce : Option (ByteArr 12)
  derivationSalt : Option (ByteArr 32)
  ciphertext : Bytes
  deriving DecidableEq

def envelopeVersion : UInt8 := 1

/-- A presence flag and the value when it is there. -/
def flagged {α : Type} (encode : α → Bytes) : Option α → Bytes
  | some a => 1 :: encode a
  | none => [0]

def EncryptionEnvelope.storedBytes (e : EncryptionEnvelope) : Bytes :=
  e.version :: e.mode.code :: (lenPrefixed (utf8 e.scopeId) ++
    (flagged (fun keyId => lenPrefixed (utf8 keyId)) e.keyId ++
      (flagged (·.val) e.nonce ++ (flagged (·.val) e.derivationSalt ++
        lenPrefixed e.ciphertext))))

section Reading

def readByte : Bytes → Except EncryptionError (UInt8 × Bytes)
  | [] => .error (.invalidEnvelope "unexpected end of envelope")
  | b :: cursor => .ok (b, cursor)

def coreErrorText : CoreError → String
  | .unexpectedEof => "unexpected EOF"
  | .invalidVarint => "invalid varint"

def readBytes (cursor : Bytes) : Except EncryptionError (Bytes × Bytes) :=
  match decodeVaru cursor with
  | .error e =>
    let err := coreErrorText e
    .error (.invalidEnvelope s!"invalid length prefix: {err}")
  | .ok (count, cursor) =>
    let len := count.toNat
    let rest := cursor.length
    if rest < len then
      .error (.invalidEnvelope
        s!"length-prefixed slice exceeds remaining bytes (need {len}, have {rest})")
    else .ok (cursor.take len, cursor.drop len)

def readString (cursor : Bytes) : Except EncryptionError (Ident × Bytes) := do
  let (bytes, cursor) ← readBytes cursor
  match fromUtf8 bytes with
  | none => .error (.invalidEnvelope "invalid UTF-8 in envelope string")
  | some s => .ok (s, cursor)

def readFixed (n : ℕ) (cursor : Bytes) : Except EncryptionError (ByteArr n × Bytes) :=
  let found := cursor.length
  if h : cursor.length < n then
    .error (.invalidEnvelope s!"expected {n} bytes, found {found}")
  else .ok (ByteArr.slice n 0 cursor (by omega), cursor.drop n)

/-- A value behind a presence flag. -/
def readFlagged {α : Type} (field : String) (read : Bytes → Except EncryptionError (α × Bytes))
    (cursor : Bytes) : Except EncryptionError (Option α × Bytes) := do
  let (flag, cursor) ← readByte cursor
  if flag = 0 then .ok (none, cursor)
  else if flag = 1 then
    let (a, cursor) ← read cursor
    .ok (some a, cursor)
  else .error (.invalidEnvelope s!"invalid {field} presence flag: {flag}")

def readMode (code : UInt8) : Except EncryptionError EncryptionMode :=
  if code = 0 then .ok .off
  else if code = 1 then .ok .encRandom
  else if code = 2 then .ok .encMleDb
  else .error (.invalidEnvelope s!"unknown encryption mode code: {code}")

def EncryptionEnvelope.fromStoredBytes (bytes : Bytes) :
    Except EncryptionError EncryptionEnvelope := do
  let (version, cursor) ← readByte bytes
  if version ≠ envelopeVersion then
    .error (.invalidEnvelope s!"unsupported envelope version: {version}")
  else
    let (modeCode, cursor) ← readByte cursor
    let mode ← readMode modeCode
    let (scopeId, cursor) ← readString cursor
    let (keyId, cursor) ← readFlagged "key_id" readString cursor
    let (nonce, cursor) ← readFlagged "nonce" (readFixed 12) cursor
    let (derivationSalt, cursor) ← readFlagged "derivation_salt" (readFixed 32) cursor
    let (ciphertext, cursor) ← readBytes cursor
    if cursor ≠ [] then .error (.invalidEnvelope "trailing bytes after envelope")
    else .ok ⟨version, mode, scopeId, keyId, nonce, derivationSalt, ciphertext⟩

end Reading

section RoundTrip

theorem fromUtf8_utf8 (s : Ident) : fromUtf8 (utf8 s) = some s := by
  have hencode : (utf8 s).toByteArray = s.utf8Encode := rfl
  rw [fromUtf8, hencode, List.utf8Decode?_utf8Encode]
  simp

theorem readBytes_lenPrefixed {bytes : Bytes} (rest : Bytes) (h : bytes.length < 2 ^ 64) :
    readBytes (lenPrefixed bytes ++ rest) = .ok (bytes, rest) := by
  simp only [readBytes, decodeVaru_lenPrefixed, toNat_ofNat_of_lt h]
  rw [if_neg (by simp), List.take_left' rfl, List.drop_left' rfl]

theorem readString_utf8 {s : Ident} (rest : Bytes) (h : (utf8 s).length < 2 ^ 64) :
    readString (lenPrefixed (utf8 s) ++ rest) = .ok (s, rest) := by
  simp only [readString, readBytes_lenPrefixed rest h, bind, Except.bind, fromUtf8_utf8]

theorem readFixed_append {n : ℕ} (arr : ByteArr n) (rest : Bytes) :
    readFixed n (arr.val ++ rest) = .ok (arr, rest) := by
  have hlong : ¬ (arr.val ++ rest).length < n := by simp [arr.property]
  have hslice (hl : 0 + n ≤ (arr.val ++ rest).length) :
      ByteArr.slice n 0 (arr.val ++ rest) hl = arr :=
    ByteArr.slice_append arr [] rest rfl rfl hl
  simp only [readFixed, dif_neg hlong, hslice]
  rw [List.drop_left' arr.property]

/-- A flagged value is read back when its reader reads it back. -/
theorem readFlagged_flagged {α : Type} {encode : α → Bytes}
    {read : Bytes → Except EncryptionError (α × Bytes)} (field : String) {value : Option α}
    (rest : Bytes) (h : ∀ a ∈ value, read (encode a ++ rest) = .ok (a, rest)) :
    readFlagged field read (flagged encode value ++ rest) = .ok (value, rest) := by
  cases value with
  | none => rfl
  | some a =>
    have hflag : (1 : UInt8) ≠ 0 := by decide
    simp only [flagged, List.cons_append, readFlagged, readByte, bind, Except.bind, hflag,
      if_false, if_true, h a rfl]

theorem readMode_code (mode : EncryptionMode) : readMode mode.code = .ok mode := by
  cases mode <;> rfl

/-- An envelope of the current version parses back from its stored bytes. -/
theorem fromStoredBytes_storedBytes {e : EncryptionEnvelope}
    (hversion : e.version = envelopeVersion) (h : e.storedBytes.length < 2 ^ 63) :
    EncryptionEnvelope.fromStoredBytes e.storedBytes = .ok e := by
  obtain ⟨version, mode, scopeId, keyId, nonce, derivationSalt, ciphertext⟩ := e
  simp only at hversion
  subst hversion
  simp only [EncryptionEnvelope.storedBytes, List.length_cons, List.length_append] at h
  have hscope : (utf8 scopeId).length < 2 ^ 64 := by
    simp only [lenPrefixed, List.length_append] at h
    omega
  have hcipher : ciphertext.length < 2 ^ 64 := by
    simp only [lenPrefixed, List.length_append] at h
    omega
  have hkey : ∀ k ∈ keyId, ∀ rest, readString (lenPrefixed (utf8 k) ++ rest) = .ok (k, rest) := by
    intro k hk rest
    obtain rfl := Option.mem_def.mp hk
    apply readString_utf8
    simp only [flagged, lenPrefixed, List.length_append, List.length_cons] at h
    omega
  have hempty := readBytes_lenPrefixed [] hcipher
  rw [List.append_nil] at hempty
  simp only [EncryptionEnvelope.fromStoredBytes, EncryptionEnvelope.storedBytes, readByte, bind,
    Except.bind, ne_eq, not_true_eq_false, if_false, readMode_code]
  rw [readString_utf8 _ hscope]
  simp only
  rw [readFlagged_flagged "key_id" _ fun k hk => hkey k hk _]
  simp only
  rw [readFlagged_flagged "nonce" _ fun arr _ => readFixed_append arr _]
  simp only
  rw [readFlagged_flagged "derivation_salt" _ fun arr _ => readFixed_append arr _]
  simp only [hempty, not_true_eq_false, if_false]

end RoundTrip

section Unambiguous

/-- An envelope of another version is refused, whatever follows the version. -/
theorem fromStoredBytes_version {version : UInt8} (hversion : version ≠ envelopeVersion)
    (cursor : Bytes) : EncryptionEnvelope.fromStoredBytes (version :: cursor) =
      .error (.invalidEnvelope s!"unsupported envelope version: {version}") := by
  simp only [EncryptionEnvelope.fromStoredBytes, readByte, bind, Except.bind]
  exact if_pos hversion

/-- A length prefix tells where the bytes behind it end. -/
theorem lenPrefixed_append_inj {a b r t : Bytes} (ha : a.length < 2 ^ 64) (hb : b.length < 2 ^ 64)
    (h : lenPrefixed a ++ r = lenPrefixed b ++ t) : a = b ∧ r = t := by
  have hread := readBytes_lenPrefixed r ha
  rw [h, readBytes_lenPrefixed t hb] at hread
  simpa using hread.symm

theorem utf8_injective : Function.Injective utf8 := by
  intro a b h
  have hdecoded := fromUtf8_utf8 a
  rw [h, fromUtf8_utf8] at hdecoded
  exact (Option.some.inj hdecoded).symm

theorem toU8_injective : Function.Injective ValueKind.toU8 := by
  intro a b h
  cases a <;> cases b <;> first | rfl | cases h

/-- A context as its associated data shows it. -/
def EncryptionContext.trimmed (ctx : EncryptionContext) : EncryptionContext :=
  { ctx with dbId := trim ctx.dbId, tableId := trim ctx.tableId, columnId := trim ctx.columnId }

theorem aadBytes_eq {ctx : EncryptionContext} {bytes : Bytes} (h : ctx.aadBytes = .ok bytes) :
    bytes = lenPrefixed (utf8 aadLabel) ++ (lenPrefixed (utf8 (trim ctx.dbId)) ++
      (lenPrefixed (utf8 (trim ctx.tableId)) ++ (lenPrefixed (utf8 (trim ctx.columnId)) ++
        (ctx.valueKind.toU8 :: leBytes 4 ctx.codecVersion.toNat)))) := by
  rw [EncryptionContext.aadBytes, normalizeRequired] at h
  split_ifs at h with hblank
  · cases h
  · cases h
    simp

/-- Contexts with the same associated data are the same after trimming. -/
theorem aadBytes_injective {ctx ctx' : EncryptionContext} {bytes : Bytes}
    (hlen : bytes.length < 2 ^ 63) (h : ctx.aadBytes = .ok bytes)
    (h' : ctx'.aadBytes = .ok bytes) : ctx.trimmed = ctx'.trimmed := by
  have heq := aadBytes_eq h
  have heq' := aadBytes_eq h'
  have hlens := congrArg List.length heq
  have hlens' := congrArg List.length heq'
  simp only [lenPrefixed, List.length_append, List.length_cons] at hlens hlens'
  rw [heq] at heq'
  obtain ⟨-, heq'⟩ := lenPrefixed_append_inj (by omega) (by omega) heq'
  obtain ⟨hdb, heq'⟩ := lenPrefixed_append_inj (by omega) (by omega) heq'
  obtain ⟨htable, heq'⟩ := lenPrefixed_append_inj (by omega) (by omega) heq'
  obtain ⟨hcolumn, heq'⟩ := lenPrefixed_append_inj (by omega) (by omega) heq'
  obtain ⟨hkind, hcodec⟩ := List.cons.inj heq'
  have hversion : ctx.codecVersion = ctx'.codecVersion := by
    have hnat := congrArg leNat hcodec
    rw [leNat_leBytes 4 _ ctx.codecVersion.toNat_lt, leNat_leBytes 4 _ ctx'.codecVersion.toNat_lt]
      at hnat
    exact UInt32.toNat_inj.mp hnat
  simp only [EncryptionContext.trimmed, EncryptionContext.mk.injEq]
  exact ⟨utf8_injective hdb, utf8_injective htable, utf8_injective hcolumn,
    toU8_injective hkind, hversion⟩

/-- Stored envelopes of the current version parse back and others are refused, and associated data
tells any two contexts apart that differ after trimming. -/
theorem envelopes_and_associated_data :
    (∀ e : EncryptionEnvelope, e.storedBytes.length < 2 ^ 63 →
      EncryptionEnvelope.fromStoredBytes e.storedBytes =
        if e.version = envelopeVersion then .ok e
        else .error (.invalidEnvelope s!"unsupported envelope version: {e.version}")) ∧
      ∀ (ctx ctx' : EncryptionContext) (bytes : Bytes), bytes.length < 2 ^ 63 →
        ctx.aadBytes = .ok bytes → ctx'.aadBytes = .ok bytes → ctx.trimmed = ctx'.trimmed := by
  refine ⟨fun e hlen => ?_, fun ctx ctx' bytes hlen h h' => aadBytes_injective hlen h h'⟩
  split_ifs with hversion
  · exact fromStoredBytes_storedBytes hversion hlen
  · exact fromStoredBytes_version hversion _

/-- A separator in a name does not make two contexts alike. -/
def spacedContext (table column : String) : EncryptionContext :=
  ⟨"app".toList, table.toList, column.toList, .cell, 1⟩

theorem envelopes_and_associated_data_sample :
    EncryptionEnvelope.fromStoredBytes
        (EncryptionEnvelope.mk 1 .encMleDb "s".toList none none none [7]).storedBytes =
      .ok ⟨1, .encMleDb, "s".toList, none, none, none, [7]⟩ ∧
      ∀ bytes, bytes.length < 2 ^ 63 → (spacedContext "a b" "c").aadBytes = .ok bytes →
        (spacedContext "a" "b c").aadBytes ≠ .ok bytes := by
  refine ⟨(envelopes_and_associated_data.1 _ (by decide)).trans (if_pos rfl), ?_⟩
  intro bytes hlen h h'
  have hsame := envelopes_and_associated_data.2 _ _ bytes hlen h h'
  revert hsame
  decide

/-- An envelope of version zero does not parse back. -/
theorem old_envelope_refused :
    EncryptionEnvelope.fromStoredBytes
        (EncryptionEnvelope.mk 0 .off [] none none none []).storedBytes ≠
      .ok ⟨0, .off, [], none, none, none, []⟩ := by
  decide

end Unambiguous

end SkeinDB.Encryption
