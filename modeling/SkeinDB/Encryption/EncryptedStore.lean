import SkeinDB.Encryption.KeyRing
import SkeinDB.Values.LearnedIndex

/-!
# Encrypted values in the value store

`skeindb-core/src/encrypted_valuestore.rs`: envelopes kept as cells of the value store, and the
re-encryption sweep. The store only grows: a sweep writes new envelopes beside the old ones.
-/
namespace SkeinDB.Encryption
open SkeinDB.Codec SkeinDB.Format SkeinDB.Values

structure EncryptedRecord where
  valueId : ValueId
  mode : EncryptionMode
  scopeId : Ident
  keyId : Option Ident
  deriving DecidableEq

inductive EncryptedValueStoreError
  | missing (valueId : ValueId)
  | unexpectedKind (valueId : ValueId) (kind : ValueKind)
  | encryption (e : EncryptionError)
  deriving DecidableEq

structure EncryptedValueStore where
  inner : ValueStore
  keys : DatabaseKeyManager

/-- An id of a sweep and the nonce drawn should its envelope be rewritten. -/
abbrev SweepItem := ValueId × Option (ByteArr 12)

namespace EncryptedValueStore

def putEncrypted (v : EncryptedValueStore) (env : Env) (crypto : Crypto) (ctx : EncryptionContext)
    (plaintext : Bytes) (entropy : Option (ByteArr 12)) :
    Except EncryptedValueStoreError EncryptedRecord × EncryptedValueStore :=
  match v.keys.encrypt crypto ctx plaintext entropy with
  | .error e => (.error (.encryption e), v)
  | .ok envelope =>
    let (inner, valueId) := v.inner.put env .cell envelope.storedBytes
    (.ok ⟨valueId, envelope.mode, envelope.scopeId, envelope.keyId⟩, { v with inner := inner })

def readEnvelope (v : EncryptedValueStore) (valueId : ValueId) :
    Except EncryptedValueStoreError EncryptionEnvelope × EncryptedValueStore :=
  let (found, inner) := v.inner.get valueId
  let v := { v with inner := inner }
  match found with
  | none => (.error (.missing valueId), v)
  | some entry =>
    if entry.kind ≠ .cell then (.error (.unexpectedKind valueId entry.kind), v)
    else ((EncryptionEnvelope.fromStoredBytes entry.bytes).mapError .encryption, v)

def getDecrypted (v : EncryptedValueStore) (crypto : Crypto) (ctx : EncryptionContext)
    (valueId : ValueId) : Except EncryptedValueStoreError Bytes × EncryptedValueStore :=
  match v.readEnvelope valueId with
  | (.error e, v) => (.error e, v)
  | (.ok envelope, v) => ((v.keys.decrypt crypto ctx envelope).mapError .encryption, v)

/-- The old envelope stays where it is. -/
def reencryptValue (v : EncryptedValueStore) (env : Env) (crypto : Crypto)
    (ctx : EncryptionContext) (valueId : ValueId) (progress : ReencryptionProgress)
    (entropy : Option (ByteArr 12)) :
    Except EncryptedValueStoreError (Option ValueId) × ReencryptionProgress ×
      EncryptedValueStore :=
  match v.readEnvelope valueId with
  | (.error e, v) => (.error e, progress, v)
  | (.ok envelope, v) =>
    match v.keys.reencryptEnvelope crypto ctx envelope progress entropy with
    | (.error e, progress) => (.error (.encryption e), progress, v)
    | (.ok none, progress) => (.ok none, progress, v)
    | (.ok (some envelope), progress) =>
      let (inner, newId) := v.inner.put env .cell envelope.storedBytes
      (.ok (some newId), progress, { v with inner := inner })

/-- The sweep: the ids rewritten, each with the new id. The first error ends it. -/
def reencryptValues (v : EncryptedValueStore) (env : Env) (crypto : Crypto)
    (ctx : EncryptionContext) (items : List SweepItem) (progress : ReencryptionProgress) :
    Except EncryptedValueStoreError (List (ValueId × ValueId)) × ReencryptionProgress ×
      EncryptedValueStore :=
  match items with
  | [] => (.ok [], progress, v)
  | (valueId, entropy) :: items =>
    match v.reencryptValue env crypto ctx valueId progress entropy with
    | (.error e, progress, v) => (.error e, progress, v)
    | (.ok newId, progress, v) =>
      match v.reencryptValues env crypto ctx items progress with
      | (.error e, progress, v) => (.error e, progress, v)
      | (.ok rewritten, progress, v) =>
        (.ok (newId.toList.map (valueId, ·) ++ rewritten), progress, v)

end EncryptedValueStore

theorem put_snd (env : Env) (s : ValueStore) (kind : ValueKind) (bytes : Bytes) :
    (s.put env kind bytes).2 = env.valueId bytes := by
  unfold ValueStore.put ValueStore.putWithId
  split <;> rfl

section Reading
variable {v w : EncryptedValueStore}

/-- A read changes only the statistics of the store. -/
theorem readEnvelope_snd (v : EncryptedValueStore) (id : ValueId) :
    (v.readEnvelope id).2 = { v with inner := (v.inner.get id).2 } := by
  simp only [EncryptedValueStore.readEnvelope]
  split
  · rfl
  · split <;> rfl

@[simp] theorem readEnvelope_keys (v : EncryptedValueStore) (id : ValueId) :
    (v.readEnvelope id).2.keys = v.keys := by
  rw [readEnvelope_snd]

@[simp] theorem readEnvelope_entries (v : EncryptedValueStore) (id : ValueId) :
    (v.readEnvelope id).2.inner.entries = v.inner.entries := by
  rw [readEnvelope_snd, get_snd]

@[simp] theorem readEnvelope_entryById (v : EncryptedValueStore) (id k : ValueId) :
    (v.readEnvelope id).2.inner.entryById k = v.inner.entryById k := by
  rw [readEnvelope_snd, get_snd]
  rfl

theorem readEnvelope_lookupInv (h : LookupInv v.inner) (id : ValueId) :
    LookupInv (v.readEnvelope id).2.inner := by
  rw [readEnvelope_snd, get_snd]
  exact h.congr rfl rfl rfl rfl rfl rfl

/-- A read finds the cell under its id and parses it. -/
theorem readEnvelope_eq_ok (h : LookupInv v.inner) {id : ValueId} {e : EncryptionEnvelope} :
    (v.readEnvelope id).1 = .ok e ↔ ∃ entry, v.inner.entryById id = some entry ∧
      entry.kind = .cell ∧ EncryptionEnvelope.fromStoredBytes entry.bytes = .ok e := by
  simp only [EncryptedValueStore.readEnvelope, h.get_fst]
  cases hentry : v.inner.entryById id with
  | none => simp
  | some entry =>
    by_cases hkind : entry.kind = .cell
    · cases hparse : EncryptionEnvelope.fromStoredBytes entry.bytes with
      | error err => simp [hkind, hparse, Except.mapError]
      | ok found => simp [hkind, hparse, Except.mapError]
    · simp [hkind]

theorem getDecrypted_eq_ok {crypto : Crypto} {ctx : EncryptionContext} {id : ValueId}
    {plaintext : Bytes} : (v.getDecrypted crypto ctx id).1 = .ok plaintext ↔
      ∃ e, (v.readEnvelope id).1 = .ok e ∧ v.keys.decrypt crypto ctx e = .ok plaintext := by
  have hkeys := readEnvelope_keys v id
  unfold EncryptedValueStore.getDecrypted
  cases hread : v.readEnvelope id with
  | mk result w =>
    rw [hread] at hkeys
    cases result with
    | error err => simp
    | ok e =>
      simp only at hkeys
      cases hplain : v.keys.decrypt crypto ctx e with
      | error err => simp [hkeys, hplain, Except.mapError]
      | ok found => simp [hkeys, hplain, Except.mapError]

theorem getDecrypted_snd (crypto : Crypto) (ctx : EncryptionContext) (id : ValueId) :
    (v.getDecrypted crypto ctx id).2 = (v.readEnvelope id).2 := by
  unfold EncryptedValueStore.getDecrypted
  cases hread : v.readEnvelope id with
  | mk result w => cases result <;> rfl

end Reading

/-- The store `w` holds what `v` holds under every id of `v`, and has the keys of `v`. -/
structure Extends (v w : EncryptedValueStore) : Prop where
  lookup : LookupInv v.inner → LookupInv w.inner
  entry : LookupInv v.inner → ∀ id entry, v.inner.entryById id = some entry →
    w.inner.entryById id = some entry
  keys : w.keys = v.keys

namespace Extends
variable {env : Env} {v w u : EncryptedValueStore}

theorem refl (v : EncryptedValueStore) : Extends v v :=
  ⟨fun h => h, fun _ _ _ h => h, rfl⟩

theorem trans (h : Extends v w) (h' : Extends w u) : Extends v u where
  lookup hv := h'.lookup (h.lookup hv)
  entry hv id entry he := h'.entry (h.lookup hv) id entry (h.entry hv id entry he)
  keys := h'.keys.trans h.keys

theorem read (v : EncryptedValueStore) (id : ValueId) : Extends v (v.readEnvelope id).2 where
  lookup h := readEnvelope_lookupInv h id
  entry _ k entry he := by rw [readEnvelope_entryById, he]
  keys := readEnvelope_keys v id

theorem put (env : Env) (v : EncryptedValueStore) (bytes : Bytes) :
    Extends v { v with inner := (v.inner.put env .cell bytes).1 } where
  lookup h := h.putWithId .cell _ bytes
  entry h id entry he := by
    simp only [ValueStore.put, ValueStore.putWithId]
    split
    · exact he
    · rename_i hnew
      rw [ValueStore.entryById_insertNew h.wf, if_neg]
      · exact he
      · rintro rfl
        exact hnew ((ValueStore.entryById_isSome h.wf).mp (by rw [he]; rfl))
  keys := rfl

theorem readEnvelope (h : Extends v w) (hv : LookupInv v.inner) {id : ValueId}
    {e : EncryptionEnvelope} (he : (v.readEnvelope id).1 = .ok e) :
    (w.readEnvelope id).1 = .ok e := by
  obtain ⟨entry, hentry, hkind, hparse⟩ := (readEnvelope_eq_ok hv).mp he
  exact (readEnvelope_eq_ok (h.lookup hv)).mpr ⟨entry, h.entry hv id entry hentry, hkind, hparse⟩

theorem getDecrypted (h : Extends v w) (hv : LookupInv v.inner) {crypto : Crypto}
    {ctx : EncryptionContext} {id : ValueId} {plaintext : Bytes}
    (hplain : (v.getDecrypted crypto ctx id).1 = .ok plaintext) :
    (w.getDecrypted crypto ctx id).1 = .ok plaintext := by
  obtain ⟨e, he, hopen⟩ := getDecrypted_eq_ok.mp hplain
  exact getDecrypted_eq_ok.mpr ⟨e, h.readEnvelope hv he, by rw [h.keys, hopen]⟩

end Extends

end SkeinDB.Encryption
