import SkeinDB.Encryption.Envelope
import Mathlib.Data.List.AList

/-!
# The database key ring

`skeindb-core/src/encryption.rs`: registration, activation and rotation of database keys, and
encryption, decryption and re-encryption of envelopes. An envelope names the key it was sealed
under; decryption looks that key up.
-/
namespace SkeinDB.Encryption
open SkeinDB.Codec SkeinDB.Format

/-- What the key ring takes from its cryptographic libraries: SHA-256, HKDF-SHA256 and
AES-256-GCM-SIV. -/
structure Crypto where
  sha256 : Bytes → ByteArr 32
  hkdf : Option (ByteArr 32) → ByteArr 32 → Ident → (n : ℕ) → ByteArr n
  encrypt : ByteArr 32 → ByteArr 12 → Bytes → Bytes → Option Bytes
  decrypt : ByteArr 32 → ByteArr 12 → Bytes → Bytes → Option Bytes

/-- What was sealed opens again under the same key, nonce and associated data. -/
def Crypto.Correct (crypto : Crypto) : Prop :=
  ∀ key nonce aad msg ciphertext, crypto.encrypt key nonce aad msg = some ciphertext →
    crypto.decrypt key nonce aad ciphertext = some msg

/-- What was sealed does not open under another key. -/
def Crypto.RejectsOtherKeys (crypto : Crypto) : Prop :=
  ∀ key key' nonce aad msg ciphertext, crypto.encrypt key nonce aad msg = some ciphertext →
    key' ≠ key → crypto.decrypt key' nonce aad ciphertext = none

def encRandomInfo : Ident := "skeindb-enc-random".toList

def encMleDbInfo : Ident := "skeindb-enc-mle-db".toList

def encMleDbNonceInfo : Ident := "skeindb-enc-mle-db-nonce".toList

structure DatabaseEncryptionProfile where
  dbId : Ident
  mode : EncryptionMode
  activeKeyId : Option Ident
  deriving DecidableEq, Repr

def DatabaseEncryptionProfile.new (dbId : Ident) : DatabaseEncryptionProfile := ⟨dbId, .off, none⟩

structure DatabaseKeyManager where
  profiles : AList fun _ : Ident => DatabaseEncryptionProfile
  keys : AList fun _ : Ident × Ident => ByteArr 32

structure KeyRotationPlan where
  dbId : Ident
  previousKeyId : Option Ident
  newKeyId : Ident
  mode : EncryptionMode
  deriving DecidableEq, Repr

structure ReencryptionProgress where
  dbId : Ident
  previousKeyId : Option Ident
  newKeyId : Option Ident
  envelopesInspected : ℕ
  envelopesRewritten : ℕ
  envelopesSkippedOff : ℕ
  envelopesSkippedCurrent : ℕ
  deriving DecidableEq, Repr

namespace ReencryptionProgress

def new (dbId : Ident) : ReencryptionProgress := ⟨dbId, none, none, 0, 0, 0, 0⟩

def noteInspected (p : ReencryptionProgress) : ReencryptionProgress :=
  { p with envelopesInspected := saturatingAdd p.envelopesInspected 1 }

def noteRewritten (p : ReencryptionProgress) : ReencryptionProgress :=
  { p with envelopesRewritten := saturatingAdd p.envelopesRewritten 1 }

def noteOff (p : ReencryptionProgress) : ReencryptionProgress :=
  { p with envelopesSkippedOff := saturatingAdd p.envelopesSkippedOff 1 }

def noteAlreadyCurrent (p : ReencryptionProgress) : ReencryptionProgress :=
  { p with envelopesSkippedCurrent := saturatingAdd p.envelopesSkippedCurrent 1 }

end ReencryptionProgress

namespace DatabaseKeyManager

def new : DatabaseKeyManager := ⟨∅, ∅⟩

/-- `entry(db_id).or_insert_with(..)`. -/
def profileOrNew (m : DatabaseKeyManager) (dbId : Ident) : DatabaseEncryptionProfile :=
  (m.profiles.lookup dbId).getD (.new dbId)

def registerDatabaseKey (m : DatabaseKeyManager) (dbId keyId : Ident) (masterKey : ByteArr 32) :
    Except EncryptionError Unit × DatabaseKeyManager :=
  match normalizeRequired dbId "db_id" with
  | .error e => (.error e, m)
  | .ok dbId =>
    match normalizeRequired keyId "key_id" with
    | .error e => (.error e, m)
    | .ok keyId =>
      let profile := m.profileOrNew dbId
      let profile :=
        if profile.activeKeyId.isNone then { profile with activeKeyId := some keyId } else profile
      (.ok (), ⟨m.profiles.insert dbId profile, m.keys.insert (dbId, keyId) masterKey⟩)

/-- Any key that is registered can become the active one; no key is removed. -/
def rotateActiveKey (m : DatabaseKeyManager) (dbId newKeyId : Ident) :
    Except EncryptionError KeyRotationPlan × DatabaseKeyManager :=
  match normalizeRequired dbId "db_id" with
  | .error e => (.error e, m)
  | .ok dbId =>
    match normalizeRequired newKeyId "key_id" with
    | .error e => (.error e, m)
    | .ok newKeyId =>
      if (dbId, newKeyId) ∈ m.keys then
        let profile := m.profileOrNew dbId
        (.ok ⟨dbId, profile.activeKeyId, newKeyId, profile.mode⟩,
          { m with
            profiles := m.profiles.insert dbId { profile with activeKeyId := some newKeyId } })
      else (.error (.missingKey dbId newKeyId), m)

/-- The same change of the active key without a plan. -/
def setActiveDatabaseKey (m : DatabaseKeyManager) (dbId keyId : Ident) :
    Except EncryptionError Unit × DatabaseKeyManager :=
  ((m.rotateActiveKey dbId keyId).1.map fun _ => (), (m.rotateActiveKey dbId keyId).2)

/-- The profile is there afterwards, also when the mode is refused. -/
def setDatabaseMode (m : DatabaseKeyManager) (dbId : Ident) (mode : EncryptionMode) :
    Except EncryptionError Unit × DatabaseKeyManager :=
  match normalizeRequired dbId "db_id" with
  | .error e => (.error e, m)
  | .ok dbId =>
    let profile := m.profileOrNew dbId
    let refused := { m with profiles := m.profiles.insert dbId profile }
    let accepted := { m with profiles := m.profiles.insert dbId { profile with mode := mode } }
    if mode = .off then (.ok (), accepted)
    else match profile.activeKeyId with
      | none => (.error (.missingActiveKey dbId), refused)
      | some keyId =>
        if (dbId, keyId) ∈ m.keys then (.ok (), accepted)
        else (.error (.missingKey dbId keyId), refused)

def loadProfile (profiles : AList fun _ : Ident => DatabaseEncryptionProfile)
    (profile : DatabaseEncryptionProfile) : AList fun _ : Ident => DatabaseEncryptionProfile :=
  if trim profile.dbId = [] then profiles
  else profiles.insert (trim profile.dbId)
    ⟨trim profile.dbId, profile.mode, (profile.activeKeyId.map trim).filter (· ≠ [])⟩

def loadProfiles (m : DatabaseKeyManager) (profiles : List DatabaseEncryptionProfile) :
    DatabaseKeyManager :=
  { m with profiles := profiles.foldl loadProfile ∅ }

def lookupKey (m : DatabaseKeyManager) (dbId keyId : Ident) :
    Except EncryptionError (ByteArr 32) :=
  match m.keys.lookup (dbId, keyId) with
  | none => .error (.missingKey dbId keyId)
  | some masterKey => .ok masterKey

/-- The active key of a profile and its material. -/
def activeKey (m : DatabaseKeyManager) (dbId : Ident) (profile : DatabaseEncryptionProfile) :
    Except EncryptionError (Ident × ByteArr 32) :=
  match profile.activeKeyId with
  | none => .error (.missingActiveKey dbId)
  | some keyId => (m.lookupKey dbId keyId).map fun masterKey => (keyId, masterKey)

def aeadResult : Option Bytes → Except EncryptionError Bytes
  | none => .error .aead
  | some bytes => .ok bytes

/-- `entropy` is the nonce drawn from the system, if it could be drawn. -/
def encrypt (m : DatabaseKeyManager) (crypto : Crypto) (ctx : EncryptionContext)
    (plaintext : Bytes) (entropy : Option (ByteArr 12)) :
    Except EncryptionError EncryptionEnvelope := do
  let dbId ← normalizeRequired ctx.dbId "db_id"
  match m.profiles.lookup dbId with
  | none => .error (.unknownDatabase dbId)
  | some profile =>
    let aad ← ctx.aadBytes
    match profile.mode with
    | .off => .ok ⟨envelopeVersion, .off, dbId, none, none, none, plaintext⟩
    | .encRandom =>
      let (keyId, masterKey) ← m.activeKey dbId profile
      let contentKey := crypto.hkdf none masterKey encRandomInfo 32
      match entropy with
      | none => .error .entropy
      | some nonce =>
        let ciphertext ← aeadResult (crypto.encrypt contentKey nonce aad plaintext)
        .ok ⟨envelopeVersion, .encRandom, dbId, some keyId, some nonce, none, ciphertext⟩
    | .encMleDb =>
      let (keyId, masterKey) ← m.activeKey dbId profile
      let derivationSalt := crypto.sha256 plaintext
      let contentKey := crypto.hkdf (some derivationSalt) masterKey encMleDbInfo 32
      let nonce := crypto.hkdf (some derivationSalt) masterKey encMleDbNonceInfo 12
      let ciphertext ← aeadResult (crypto.encrypt contentKey nonce aad plaintext)
      .ok ⟨envelopeVersion, .encMleDb, dbId, some keyId, none, some derivationSalt, ciphertext⟩

def decrypt (m : DatabaseKeyManager) (crypto : Crypto) (ctx : EncryptionContext)
    (envelope : EncryptionEnvelope) : Except EncryptionError Bytes := do
  let dbId ← normalizeRequired ctx.dbId "db_id"
  if envelope.scopeId ≠ dbId then .error (.scopeMismatch envelope.scopeId dbId)
  else
    let aad ← ctx.aadBytes
    match envelope.mode with
    | .off => .ok envelope.ciphertext
    | .encRandom =>
      match envelope.keyId, envelope.nonce with
      | none, _ => .error .missingEnvelopeKeyId
      | some _, none => .error .missingNonce
      | some keyId, some nonce =>
        let masterKey ← m.lookupKey envelope.scopeId keyId
        let contentKey := crypto.hkdf none masterKey encRandomInfo 32
        aeadResult (crypto.decrypt contentKey nonce aad envelope.ciphertext)
    | .encMleDb =>
      match envelope.keyId, envelope.derivationSalt with
      | none, _ => .error .missingEnvelopeKeyId
      | some _, none => .error .missingDerivationSalt
      | some keyId, some derivationSalt =>
        let masterKey ← m.lookupKey envelope.scopeId keyId
        let contentKey := crypto.hkdf (some derivationSalt) masterKey encMleDbInfo 32
        let nonce := crypto.hkdf (some derivationSalt) masterKey encMleDbNonceInfo 12
        aeadResult (crypto.decrypt contentKey nonce aad envelope.ciphertext)

/-- The envelope under the key and mode of the active profile, when it is not already. -/
def reencrypt (m : DatabaseKeyManager) (crypto : Crypto) (ctx : EncryptionContext)
    (envelope : EncryptionEnvelope) (progress : ReencryptionProgress)
    (entropy : Option (ByteArr 12)) :
    Except EncryptionError (Option EncryptionEnvelope) × ReencryptionProgress :=
  match normalizeRequired ctx.dbId "db_id" with
  | .error e => (.error e, progress)
  | .ok dbId =>
    match m.profiles.lookup dbId with
    | none => (.error (.unknownDatabase dbId), progress)
    | some profile =>
      match profile.activeKeyId with
      | none => (.error (.missingActiveKey dbId), progress)
      | some activeKeyId =>
        let progress :=
          { progress with previousKeyId := envelope.keyId, newKeyId := some activeKeyId }
        if envelope.keyId = some activeKeyId ∧ envelope.mode = profile.mode then
          (.ok none, progress.noteAlreadyCurrent)
        else match m.decrypt crypto ctx envelope with
          | .error e => (.error e, progress)
          | .ok plaintext =>
            match m.encrypt crypto ctx plaintext entropy with
            | .error e => (.error e, progress)
            | .ok newEnvelope => (.ok (some newEnvelope), progress.noteRewritten)

def reencryptEnvelope (m : DatabaseKeyManager) (crypto : Crypto) (ctx : EncryptionContext)
    (envelope : EncryptionEnvelope) (progress : ReencryptionProgress)
    (entropy : Option (ByteArr 12)) :
    Except EncryptionError (Option EncryptionEnvelope) × ReencryptionProgress :=
  if envelope.mode = .off then (.ok none, progress.noteInspected.noteOff)
  else m.reencrypt crypto ctx envelope progress.noteInspected entropy

end DatabaseKeyManager

section Keys
variable (m : DatabaseKeyManager) (dbId keyId : Ident)

/-- A registration changes the material of one key. -/
theorem registerDatabaseKey_lookup (masterKey : ByteArr 32) (p : Ident × Ident) :
    (m.registerDatabaseKey dbId keyId masterKey).2.keys.lookup p = m.keys.lookup p ∨
      (p = (trim dbId, trim keyId) ∧
        (m.registerDatabaseKey dbId keyId masterKey).2.keys.lookup p = some masterKey) := by
  unfold DatabaseKeyManager.registerDatabaseKey normalizeRequired
  by_cases hdb : trim dbId = []
  · exact Or.inl (by rw [if_pos hdb])
  by_cases hkey : trim keyId = []
  · exact Or.inl (by rw [if_neg hdb, if_pos hkey])
  rw [if_neg hdb, if_neg hkey]
  by_cases hp : p = (trim dbId, trim keyId)
  · subst hp
    exact Or.inr ⟨rfl, AList.lookup_insert _⟩
  · exact Or.inl (AList.lookup_insert_ne hp)

theorem rotateActiveKey_keys : (m.rotateActiveKey dbId keyId).2.keys = m.keys := by
  unfold DatabaseKeyManager.rotateActiveKey
  repeat' split
  all_goals rfl

theorem setDatabaseMode_keys (mode : EncryptionMode) :
    (m.setDatabaseMode dbId mode).2.keys = m.keys := by
  unfold DatabaseKeyManager.setDatabaseMode
  cases normalizeRequired dbId "db_id" with
  | error e => rfl
  | ok dbId =>
    simp only
    repeat' split
    all_goals rfl

end Keys

/-- An envelope was sealed under a key. -/
def EncryptionEnvelope.SealedUnder (e : EncryptionEnvelope) (dbId keyId : Ident) : Prop :=
  e.mode ≠ .off ∧ e.scopeId = dbId ∧ e.keyId = some keyId

instance (e : EncryptionEnvelope) (dbId keyId : Ident) : Decidable (e.SealedUnder dbId keyId) :=
  inferInstanceAs (Decidable (_ ∧ _ ∧ _))

section Decryption
variable {m m' : DatabaseKeyManager} {crypto : Crypto} {ctx : EncryptionContext}
  {e : EncryptionEnvelope} {plaintext : Bytes} {entropy : Option (ByteArr 12)}

/-- Decryption reads one key of the ring. -/
theorem decrypt_congr (h : ∀ keyId, e.SealedUnder e.scopeId keyId →
      m'.keys.lookup (e.scopeId, keyId) = m.keys.lookup (e.scopeId, keyId)) :
    m'.decrypt crypto ctx e = m.decrypt crypto ctx e := by
  have hlookup : ∀ keyId, e.mode ≠ .off → e.keyId = some keyId →
      m'.lookupKey e.scopeId keyId = m.lookupKey e.scopeId keyId := by
    intro keyId hmode hkey
    rw [DatabaseKeyManager.lookupKey, DatabaseKeyManager.lookupKey, h keyId ⟨hmode, rfl, hkey⟩]
  unfold DatabaseKeyManager.decrypt
  cases hmode : e.mode with
  | off => rfl
  | encRandom =>
    cases hkey : e.keyId with
    | none => rfl
    | some keyId =>
      cases hnonce : e.nonce with
      | none => rfl
      | some nonce =>
        simp only [hlookup keyId (by simp [hmode]) hkey]
  | encMleDb =>
    cases hkey : e.keyId with
    | none => rfl
    | some keyId =>
      cases hsalt : e.derivationSalt with
      | none => rfl
      | some derivationSalt =>
        simp only [hlookup keyId (by simp [hmode]) hkey]

theorem activeKey_eq_ok {dbId : Ident} {profile : DatabaseEncryptionProfile} {keyId : Ident}
    {masterKey : ByteArr 32} (h : m.activeKey dbId profile = .ok (keyId, masterKey)) :
    profile.activeKeyId = some keyId ∧ m.lookupKey dbId keyId = .ok masterKey := by
  unfold DatabaseKeyManager.activeKey at h
  cases hactive : profile.activeKeyId with
  | none => simp [hactive] at h
  | some active =>
    cases hlookup : m.lookupKey dbId active with
    | error err => simp [hactive, hlookup, Except.map] at h
    | ok key =>
      simp only [hactive, hlookup, Except.map] at h
      cases h
      exact ⟨rfl, hlookup⟩

theorem aeadResult_eq_ok {result : Option Bytes} {bytes : Bytes}
    (h : DatabaseKeyManager.aeadResult result = .ok bytes) : result = some bytes := by
  cases result with
  | none => cases h
  | some found => exact congrArg some (Except.ok.inj h)

/-- What a successful encryption has used: the profile of the database and, unless it is off, its
active key. -/
theorem encrypt_eq_ok (h : m.encrypt crypto ctx plaintext entropy = .ok e) :
    ∃ dbId aad profile, normalizeRequired ctx.dbId "db_id" = .ok dbId ∧ ctx.aadBytes = .ok aad ∧
      m.profiles.lookup dbId = some profile ∧ e.mode = profile.mode ∧ e.scopeId = dbId ∧
      e.version = envelopeVersion ∧ (e.mode = .off → e.ciphertext = plaintext) ∧
      (e.mode ≠ .off → ∃ keyId masterKey, profile.activeKeyId = some keyId ∧
        e.keyId = some keyId ∧ m.lookupKey dbId keyId = .ok masterKey ∧
        (e.mode = .encRandom → ∃ nonce, e.nonce = some nonce ∧
          crypto.encrypt (crypto.hkdf none masterKey encRandomInfo 32) nonce aad plaintext =
            some e.ciphertext) ∧
        (e.mode = .encMleDb → ∃ salt, e.derivationSalt = some salt ∧
          crypto.encrypt (crypto.hkdf (some salt) masterKey encMleDbInfo 32)
            (crypto.hkdf (some salt) masterKey encMleDbNonceInfo 12) aad plaintext =
              some e.ciphertext)) := by
  obtain ⟨dbId, hdb, h⟩ := bind_eq_ok h
  dsimp only at h
  cases hprofile : m.profiles.lookup dbId with
  | none => simp [hprofile] at h
  | some profile =>
    rw [hprofile] at h
    obtain ⟨aad, haad, h⟩ := bind_eq_ok h
    refine ⟨dbId, aad, profile, hdb, haad, hprofile, ?_⟩
    cases hmode : profile.mode with
    | off =>
      simp only [hmode] at h
      cases h
      simp
    | encRandom =>
      simp only [hmode] at h
      obtain ⟨⟨keyId, masterKey⟩, hkey, h⟩ := bind_eq_ok h
      obtain ⟨hactive, hlookup⟩ := activeKey_eq_ok hkey
      cases hentropy : entropy with
      | none => simp [hentropy] at h
      | some nonce =>
        simp only [hentropy] at h
        obtain ⟨ciphertext, hseal, h⟩ := bind_eq_ok h
        cases h
        refine ⟨rfl, rfl, rfl, by simp, ?_⟩
        intro _
        exact ⟨keyId, masterKey, hactive, rfl, hlookup,
          fun _ => ⟨nonce, rfl, aeadResult_eq_ok hseal⟩, by simp⟩
    | encMleDb =>
      simp only [hmode] at h
      obtain ⟨⟨keyId, masterKey⟩, hkey, h⟩ := bind_eq_ok h
      obtain ⟨hactive, hlookup⟩ := activeKey_eq_ok hkey
      obtain ⟨ciphertext, hseal, h⟩ := bind_eq_ok h
      cases h
      refine ⟨rfl, rfl, rfl, by simp, ?_⟩
      intro _
      exact ⟨keyId, masterKey, hactive, rfl, hlookup, by simp,
        fun _ => ⟨crypto.sha256 plaintext, rfl, aeadResult_eq_ok hseal⟩⟩

/-- What was encrypted decrypts under the same ring and context. -/
theorem decrypt_encrypt (hcrypto : crypto.Correct)
    (h : m.encrypt crypto ctx plaintext entropy = .ok e) :
    m.decrypt crypto ctx e = .ok plaintext := by
  obtain ⟨dbId, aad, profile, hdb, haad, -, -, hscope, -, hoff, hkeyed⟩ := encrypt_eq_ok h
  have hsame : ¬ e.scopeId ≠ dbId := by simp [hscope]
  simp only [DatabaseKeyManager.decrypt, hdb, haad, bind, Except.bind, if_neg hsame]
  cases hmode : e.mode with
  | off => rw [hoff hmode]
  | encRandom =>
    obtain ⟨keyId, masterKey, -, hkey, hlookup, hrandom, -⟩ := hkeyed (by simp [hmode])
    obtain ⟨nonce, hnonce, hseal⟩ := hrandom hmode
    simp only [hkey, hnonce, hscope, hlookup, hcrypto _ _ _ _ _ hseal,
      DatabaseKeyManager.aeadResult]
  | encMleDb =>
    obtain ⟨keyId, masterKey, -, hkey, hlookup, -, hmle⟩ := hkeyed (by simp [hmode])
    obtain ⟨salt, hsalt, hseal⟩ := hmle hmode
    simp only [hkey, hsalt, hscope, hlookup, hcrypto _ _ _ _ _ hseal,
      DatabaseKeyManager.aeadResult]

end Decryption

section Reencryption
variable {m : DatabaseKeyManager} {crypto : Crypto} {ctx : EncryptionContext}
  {e : EncryptionEnvelope} {plaintext : Bytes} {entropy : Option (ByteArr 12)}
  {progress : ReencryptionProgress}

/-- The envelope needs no rewriting. -/
def Current (m : DatabaseKeyManager) (ctx : EncryptionContext) (e : EncryptionEnvelope) : Prop :=
  e.mode = .off ∨ ∃ dbId profile keyId, normalizeRequired ctx.dbId "db_id" = .ok dbId ∧
    m.profiles.lookup dbId = some profile ∧ profile.activeKeyId = some keyId ∧
    e.keyId = some keyId ∧ e.mode = profile.mode

theorem reencryptEnvelope_current (crypto : Crypto) (entropy : Option (ByteArr 12))
    (progress : ReencryptionProgress) (h : Current m ctx e) :
    ∃ progress', m.reencryptEnvelope crypto ctx e progress entropy = (.ok none, progress') ∧
      progress'.envelopesRewritten = progress.envelopesRewritten := by
  by_cases hoff : e.mode = .off
  · exact ⟨progress.noteInspected.noteOff,
      by rw [DatabaseKeyManager.reencryptEnvelope, if_pos hoff], rfl⟩
  · obtain hmode | ⟨dbId, profile, keyId, hdb, hprofile, hactive, hkey, hmode⟩ := h
    · exact absurd hmode hoff
    · rw [DatabaseKeyManager.reencryptEnvelope, if_neg hoff]
      simp only [DatabaseKeyManager.reencrypt, hdb, hprofile, hactive]
      rw [if_pos ⟨hkey, hmode⟩]
      exact ⟨_, rfl, rfl⟩

/-- What a re-encryption has done when it succeeds: nothing to a current envelope; any other is
decrypted and encrypted again. -/
theorem reencryptEnvelope_eq_ok {result : Option EncryptionEnvelope}
    (h : (m.reencryptEnvelope crypto ctx e progress entropy).1 = .ok result) :
    (result = none ∧ Current m ctx e) ∨ ∃ e' plaintext, result = some e' ∧
      m.decrypt crypto ctx e = .ok plaintext ∧ m.encrypt crypto ctx plaintext entropy = .ok e' := by
  by_cases hoff : e.mode = .off
  · rw [DatabaseKeyManager.reencryptEnvelope, if_pos hoff] at h
    exact Or.inl ⟨(Except.ok.inj h).symm, Or.inl hoff⟩
  simp only [DatabaseKeyManager.reencryptEnvelope, if_neg hoff, DatabaseKeyManager.reencrypt] at h
  cases hdb : normalizeRequired ctx.dbId "db_id" with
  | error err => simp [hdb] at h
  | ok dbId =>
    cases hprofile : m.profiles.lookup dbId with
    | none => simp [hdb, hprofile] at h
    | some profile =>
      cases hactive : profile.activeKeyId with
      | none => simp [hdb, hprofile, hactive] at h
      | some keyId =>
        simp only [hdb, hprofile, hactive] at h
        by_cases hcurrent : e.keyId = some keyId ∧ e.mode = profile.mode
        · rw [if_pos hcurrent] at h
          exact Or.inl ⟨(Except.ok.inj h).symm, Or.inr
            ⟨dbId, profile, keyId, hdb, hprofile, hactive, hcurrent.1, hcurrent.2⟩⟩
        · rw [if_neg hcurrent] at h
          cases hplain : m.decrypt crypto ctx e with
          | error err => simp [hplain] at h
          | ok plaintext =>
            cases hsealed : m.encrypt crypto ctx plaintext entropy with
            | error err => simp [hplain, hsealed] at h
            | ok e' =>
              simp only [hplain, hsealed] at h
              exact Or.inr ⟨e', plaintext, (Except.ok.inj h).symm, rfl, hsealed⟩

/-- What an encryption returns is current. -/
theorem current_of_encrypt (h : m.encrypt crypto ctx plaintext entropy = .ok e) :
    Current m ctx e := by
  obtain ⟨dbId, aad, profile, hdb, -, hprofile, hmode, -, -, -, hkeyed⟩ := encrypt_eq_ok h
  by_cases hoff : e.mode = .off
  · exact Or.inl hoff
  · obtain ⟨keyId, masterKey, hactive, hkey, -⟩ := hkeyed hoff
    exact Or.inr ⟨dbId, profile, keyId, hdb, hprofile, hactive, hkey, hmode⟩

end Reencryption

end SkeinDB.Encryption
