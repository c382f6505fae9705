import SkeinDB.Encryption.Sweep

/-!
# Key rotation

Runs of the key ring with its value store: registrations, activations, rotations, mode changes,
encryptions and re-encryption sweeps in any order. A run keeps a record of every envelope it
produces. Old envelopes stay readable as long as no registration replaces the material of a key
that has sealed one; `register_database_key` itself does not check this.
-/
namespace SkeinDB.Encryption
open SkeinDB.Codec SkeinDB.Format SkeinDB.Values

/-- The store and its keys with the record of the run. -/
structure Vault where
  store : EncryptedValueStore
  produced : List Sealed

inductive Op
  | register (dbId keyId : Ident) (masterKey : ByteArr 32)
  | setActive (dbId keyId : Ident)
  | rotate (dbId newKeyId : Ident)
  | setMode (dbId : Ident) (mode : EncryptionMode)
  | loadProfiles (profiles : List DatabaseEncryptionProfile)
  | encrypt (ctx : EncryptionContext) (plaintext : Bytes) (entropy : Option (ByteArr 12))
  | reencrypt (ctx : EncryptionContext) (envelope : EncryptionEnvelope)
      (progress : ReencryptionProgress) (entropy : Option (ByteArr 12))
  | putEncrypted (ctx : EncryptionContext) (plaintext : Bytes) (entropy : Option (ByteArr 12))
  | getDecrypted (ctx : EncryptionContext) (valueId : ValueId)
  | sweep (ctx : EncryptionContext) (items : List SweepItem) (progress : ReencryptionProgress)

namespace Vault
variable (env : Env) (crypto : Crypto)

def new (config : ValueStoreConfig) : Vault := ⟨⟨.new config, .new⟩, []⟩

def withKeys (v : Vault) (keys : DatabaseKeyManager) : Vault :=
  { v with store := { v.store with keys := keys } }

def step (v : Vault) : Op → Vault
  | .register dbId keyId masterKey =>
    v.withKeys (v.store.keys.registerDatabaseKey dbId keyId masterKey).2
  | .setActive dbId keyId => v.withKeys (v.store.keys.setActiveDatabaseKey dbId keyId).2
  | .rotate dbId newKeyId => v.withKeys (v.store.keys.rotateActiveKey dbId newKeyId).2
  | .setMode dbId mode => v.withKeys (v.store.keys.setDatabaseMode dbId mode).2
  | .loadProfiles profiles => v.withKeys (v.store.keys.loadProfiles profiles)
  | .encrypt ctx plaintext entropy =>
    { v with produced := v.produced ++ (sealedBy crypto v.store.keys ctx plaintext entropy).toList }
  | .reencrypt ctx envelope progress entropy =>
    { v with produced :=
        v.produced ++ (resealedBy crypto v.store.keys ctx envelope progress entropy).toList }
  | .putEncrypted ctx plaintext entropy =>
    ⟨(v.store.putEncrypted env crypto ctx plaintext entropy).2, v.produced ++
      ((sealedBy crypto v.store.keys ctx plaintext entropy).map (Sealed.put env)).toList⟩
  | .getDecrypted ctx valueId =>
    { v with store := (v.store.getDecrypted crypto ctx valueId).2 }
  | .sweep ctx items progress =>
    ⟨(v.store.reencryptValues env crypto ctx items progress).2.2,
      v.produced ++ sweepWrites env crypto ctx v.store progress items⟩

def run (config : ValueStoreConfig) (ops : List Op) : Vault :=
  ops.foldl (step env crypto) (.new config)

end Vault

/-- The stored forms of the envelopes put into the value store. -/
def storedForms (produced : List Sealed) : Set Bytes :=
  {bytes | ∃ r ∈ produced, r.valueId.isSome ∧ r.envelope.storedBytes = bytes}

/-- The envelopes put into the store fit in memory and no two of them share a content hash. -/
structure Admissible (env : Env) (produced : List Sealed) : Prop where
  distinct : Set.InjOn env.valueId (storedForms produced)
  small : ∀ bytes ∈ storedForms produced, bytes.length < 2 ^ 63

/-- A registration spares the keys in use: it leaves the material of every key that has sealed
an envelope as it is. -/
def Op.Spares (v : Vault) : Op → Prop
  | .register dbId keyId masterKey =>
    ∀ r ∈ v.produced, r.envelope.SealedUnder (trim dbId) (trim keyId) →
      v.store.keys.keys.lookup (trim dbId, trim keyId) = some masterKey
  | _ => True

instance (v : Vault) (op : Op) : Decidable (op.Spares v) :=
  match op with
  | .register dbId keyId masterKey => inferInstanceAs (Decidable (∀ r ∈ v.produced,
      r.envelope.SealedUnder (trim dbId) (trim keyId) →
        v.store.keys.keys.lookup (trim dbId, trim keyId) = some masterKey))
  | .setActive .. | .rotate .. | .setMode .. | .loadProfiles .. | .encrypt .. | .reencrypt ..
  | .putEncrypted .. | .getDecrypted .. | .sweep .. => isTrue trivial

def SparingRun (env : Env) (crypto : Crypto) (config : ValueStoreConfig) (ops : List Op) : Prop :=
  ∀ earlier op later, ops = earlier ++ op :: later → op.Spares (Vault.run env crypto config earlier)

/-- The ids a caller holds after a sweep of `items` that returned `mapping`: the new id of what
was rewritten, the old one of what was not. -/
def HeldAfter (items : List SweepItem) (mapping : List (ValueId × ValueId)) (id : ValueId) :
    Prop :=
  id ∈ mapping.map (·.2) ∨ (id ∈ items.map (·.1) ∧ id ∉ mapping.map (·.1))

/-- A sweep from `v`: what could be read before is read as before, a rewritten value reads the
same under both its ids, and a second sweep over the ids held afterwards rewrites nothing. -/
structure SweepSafe (env : Env) (crypto : Crypto) (v : EncryptedValueStore)
    (ctx : EncryptionContext) (items : List SweepItem)
    (result : Except EncryptedValueStoreError (List (ValueId × ValueId)))
    (w : EncryptedValueStore) : Prop where
  preserved : ∀ ctx' id plaintext, (v.getDecrypted crypto ctx' id).1 = .ok plaintext →
    (w.getDecrypted crypto ctx' id).1 = .ok plaintext
  moved : ∀ mapping, result = .ok mapping → ∀ old new, (old, new) ∈ mapping →
    ∃ plaintext, (w.getDecrypted crypto ctx old).1 = .ok plaintext ∧
      (w.getDecrypted crypto ctx new).1 = .ok plaintext
  settled : ∀ mapping, result = .ok mapping → ∀ again : List SweepItem,
    (∀ item ∈ again, HeldAfter items mapping item.1) → ∀ progress',
      ∃ progress'' u, w.reencryptValues env crypto ctx again progress' = (.ok [], progress'', u) ∧
        progress''.envelopesRewritten = progress'.envelopesRewritten ∧
        u.inner.entries = w.inner.entries

/-- Key rotation safety of a run. -/
structure RotationSafe (env : Env) (crypto : Crypto) (config : ValueStoreConfig) (ops : List Op) :
    Prop where
  opens : ∀ earlier later, ops = earlier ++ later →
    ∀ r ∈ (Vault.run env crypto config earlier).produced,
      (Vault.run env crypto config ops).store.keys.decrypt crypto r.ctx r.envelope =
        .ok r.plaintext
  stored : ∀ earlier later, ops = earlier ++ later →
    ∀ r ∈ (Vault.run env crypto config earlier).produced, ∀ id, r.valueId = some id →
      ((Vault.run env crypto config ops).store.getDecrypted crypto r.ctx id).1 = .ok r.plaintext
  sweep : ∀ earlier ctx items progress later,
    ops = earlier ++ .sweep ctx items progress :: later →
      let v := (Vault.run env crypto config earlier).store
      SweepSafe env crypto v ctx items
        (v.reencryptValues env crypto ctx items progress).1
        (v.reencryptValues env crypto ctx items progress).2.2

/-- What a run keeps: every envelope it has produced opens, those put into the store are there,
and the store holds nothing else. -/
structure Kept (crypto : Crypto) (env : Env) (v : EncryptedValueStore) (produced : List Sealed) :
    Prop where
  lookup : LookupInv v.inner
  opens : ∀ r ∈ produced, v.keys.decrypt crypto r.ctx r.envelope = .ok r.plaintext
  version : ∀ r ∈ produced, r.envelope.version = envelopeVersion
  held : ∀ r ∈ produced, ∀ id, r.valueId = some id → id = env.valueId r.envelope.storedBytes ∧
    v.inner.entryById id = some ⟨.cell, r.envelope.storedBytes, none⟩
  owned : ∀ id entry, v.inner.entryById id = some entry → ∃ r ∈ produced, r.valueId = some id

section Keeping
variable {env : Env} {crypto : Crypto} {v w : EncryptedValueStore} {produced : List Sealed}
  {r : Sealed} {entropy : Option (ByteArr 12)}

theorem Admissible.mono {more : List Sealed} (h : Admissible env (produced ++ more)) :
    Admissible env produced := by
  have hsub : storedForms produced ⊆ storedForms (produced ++ more) := by
    rintro bytes ⟨r, hr, hstored⟩
    exact ⟨r, List.mem_append_left more hr, hstored⟩
  exact ⟨h.distinct.mono hsub, fun bytes hbytes => h.small bytes (hsub hbytes)⟩

theorem admissible_of_forall
    (hdistinct : ∀ r ∈ produced, ∀ r' ∈ produced,
      env.valueId r.envelope.storedBytes = env.valueId r'.envelope.storedBytes →
        r.envelope.storedBytes = r'.envelope.storedBytes)
    (hsmall : ∀ r ∈ produced, r.envelope.storedBytes.length < 2 ^ 63) :
    Admissible env produced := by
  refine ⟨?_, ?_⟩
  · rintro _ ⟨r, hr, -, rfl⟩ _ ⟨r', hr', -, rfl⟩ hhash
    exact hdistinct r hr r' hr' hhash
  · rintro _ ⟨r, hr, -, rfl⟩
    exact hsmall r hr

theorem encrypt_version {m : DatabaseKeyManager} {ctx : EncryptionContext} {plaintext : Bytes}
    {e : EncryptionEnvelope} (h : m.encrypt crypto ctx plaintext entropy = .ok e) :
    e.version = envelopeVersion := by
  obtain ⟨_, _, _, -, -, -, -, -, hversion, -⟩ := encrypt_eq_ok h
  exact hversion

/-- Neither reading the store nor a change of the ring that leaves the envelopes readable
matters. -/
theorem Kept.congr (h : Kept crypto env v produced) (hlookup : LookupInv w.inner)
    (hentries : ∀ id, w.inner.entryById id = v.inner.entryById id)
    (hopens : ∀ r ∈ produced,
      w.keys.decrypt crypto r.ctx r.envelope = v.keys.decrypt crypto r.ctx r.envelope) :
    Kept crypto env w produced where
  lookup := hlookup
  opens r hr := by rw [hopens r hr, h.opens r hr]
  version := h.version
  held r hr id hid := by rw [hentries]; exact h.held r hr id hid
  owned id entry he := h.owned id entry (by rw [← hentries, he])

theorem Kept.read (h : Kept crypto env v produced) (id : ValueId) :
    Kept crypto env (v.readEnvelope id).2 produced :=
  h.congr (readEnvelope_lookupInv h.lookup id) (fun k => readEnvelope_entryById v id k)
    (fun r _ => by rw [readEnvelope_keys])

/-- What an encryption returns opens, beside what was produced before. -/
theorem Kept.opens_concat (hcrypto : crypto.Correct) (h : Kept crypto env v produced)
    (hseal : v.keys.encrypt crypto r.ctx r.plaintext entropy = .ok r.envelope) :
    ∀ r' ∈ produced ++ [r], v.keys.decrypt crypto r'.ctx r'.envelope = .ok r'.plaintext ∧
      r'.envelope.version = envelopeVersion := by
  intro r' hr'
  obtain hr' | hr' := List.mem_append.mp hr'
  · exact ⟨h.opens r' hr', h.version r' hr'⟩
  · rw [List.mem_singleton.mp hr']
    exact ⟨decrypt_encrypt hcrypto hseal, encrypt_version hseal⟩

/-- An envelope that is not put into the store. -/
theorem Kept.seal (hcrypto : crypto.Correct) (h : Kept crypto env v produced)
    (hseal : v.keys.encrypt crypto r.ctx r.plaintext entropy = .ok r.envelope)
    (hid : r.valueId = none) : Kept crypto env v (produced ++ [r]) where
  lookup := h.lookup
  opens r' hr' := (h.opens_concat hcrypto hseal r' hr').1
  version r' hr' := (h.opens_concat hcrypto hseal r' hr').2
  held := by
    intro r' hr' id hid'
    obtain hr' | hr' := List.mem_append.mp hr'
    · exact h.held r' hr' id hid'
    · rw [List.mem_singleton.mp hr', hid] at hid'
      cases hid'
  owned := by
    intro id entry he
    obtain ⟨r', hr', hid'⟩ := h.owned id entry he
    exact ⟨r', List.mem_append_left _ hr', hid'⟩

/-- An envelope put into the store is found under its content hash. -/
theorem Kept.entryById_put (h : Kept crypto env v produced)
    (hid : r.valueId = some (env.valueId r.envelope.storedBytes))
    (hadm : Admissible env (produced ++ [r])) :
    (v.inner.put env .cell r.envelope.storedBytes).1.entryById
      (env.valueId r.envelope.storedBytes) = some ⟨.cell, r.envelope.storedBytes, none⟩ := by
  simp only [ValueStore.put, ValueStore.putWithId]
  split
  · -- the id is taken, so an envelope with the same stored form has been put before
    rename_i hold
    obtain ⟨entry, he⟩ := Option.isSome_iff_exists.mp
      ((ValueStore.entryById_isSome h.lookup.wf).mpr hold)
    obtain ⟨r', hr', hid'⟩ := h.owned _ entry he
    obtain ⟨hhash, hentry⟩ := h.held r' hr' _ hid'
    have hsame : r.envelope.storedBytes = r'.envelope.storedBytes := by
      refine hadm.distinct ?_ ?_ hhash
      · exact ⟨r, by simp, by simp [hid], rfl⟩
      · exact ⟨r', List.mem_append_left _ hr', by simp [hid'], rfl⟩
    rw [hentry, hsame]
  · rw [ValueStore.entryById_insertNew h.lookup.wf, if_pos rfl]

theorem Kept.put (hcrypto : crypto.Correct) (h : Kept crypto env v produced)
    (hseal : v.keys.encrypt crypto r.ctx r.plaintext entropy = .ok r.envelope)
    (hid : r.valueId = some (env.valueId r.envelope.storedBytes))
    (hadm : Admissible env (produced ++ [r])) :
    Kept crypto env { v with inner := (v.inner.put env .cell r.envelope.storedBytes).1 }
      (produced ++ [r]) := by
  have hextends := Extends.put env v r.envelope.storedBytes
  have hentry := h.entryById_put hid hadm
  have hopens := h.opens_concat hcrypto hseal
  refine ⟨hextends.lookup h.lookup, fun r' hr' => (hopens r' hr').1,
    fun r' hr' => (hopens r' hr').2, ?_, ?_⟩
  · intro r' hr' id hid'
    obtain hr' | hr' := List.mem_append.mp hr'
    · obtain ⟨hhash, hheld⟩ := h.held r' hr' id hid'
      exact ⟨hhash, hextends.entry h.lookup id _ hheld⟩
    · rw [List.mem_singleton.mp hr'] at hid' ⊢
      rw [hid] at hid'
      cases hid'
      exact ⟨rfl, hentry⟩
  · intro id entry he
    simp only [ValueStore.put, ValueStore.putWithId] at he
    split at he
    · obtain ⟨r', hr', hid'⟩ := h.owned id entry he
      exact ⟨r', List.mem_append_left _ hr', hid'⟩
    · rw [ValueStore.entryById_insertNew h.lookup.wf] at he
      by_cases hnew : id = env.valueId r.envelope.storedBytes
      · exact ⟨r, by simp, by rw [hid, hnew]⟩
      · rw [if_neg hnew] at he
        obtain ⟨r', hr', hid'⟩ := h.owned id entry he
        exact ⟨r', List.mem_append_left _ hr', hid'⟩

/-- A sweep keeps what it writes, also when it ends early. -/
theorem Kept.sweep (hcrypto : crypto.Correct) {ctx : EncryptionContext} {items : List SweepItem}
    {progress : ReencryptionProgress} (h : Kept crypto env v produced)
    (hadm : Admissible env (produced ++ sweepWrites env crypto ctx v progress items)) :
    Kept crypto env (v.reencryptValues env crypto ctx items progress).2.2
      (produced ++ sweepWrites env crypto ctx v progress items) := by
  induction items generalizing v progress produced with
  | nil => simpa [sweepWrites, EncryptedValueStore.reencryptValues] using h
  | cons item items ih =>
    have hread := h.read item.1
    -- the rest of the sweep runs from the state the first step leaves
    have hrest : ∀ newId progress' w, v.reencryptValue env crypto ctx item.1 progress item.2 =
          (.ok newId, progress', w) →
        Kept crypto env w (produced ++ (written env crypto v ctx item progress).toList) →
        Kept crypto env (v.reencryptValues env crypto ctx (item :: items) progress).2.2
          (produced ++ sweepWrites env crypto ctx v progress (item :: items)) := by
      intro newId progress' w hre hkept
      simp only [sweepWrites, hre, ← List.append_assoc] at hadm ⊢
      have hsweep := ih hkept hadm
      simp only [EncryptedValueStore.reencryptValues, hre]
      split <;> rename_i hresult <;> rwa [hresult] at hsweep
    obtain ⟨err, progress', hwritten, hre⟩ | ⟨e, progress', hwritten, -, -, hre⟩ |
      ⟨e, r, progress', hwritten, rfl, hid, -, -, hseal, hre⟩ :=
        reencryptValue_cases env crypto ctx v item progress
    · simpa only [sweepWrites, EncryptedValueStore.reencryptValues, hre, hwritten,
        Option.toList_none, List.append_nil] using hread
    · refine hrest _ _ _ hre ?_
      simpa only [hwritten, Option.toList_none, List.append_nil] using hread
    · refine hrest _ _ _ hre ?_
      rw [hwritten]
      refine hread.put hcrypto (by rwa [readEnvelope_keys]) hid ?_
      simp only [sweepWrites, hwritten, ← List.append_assoc] at hadm
      exact hadm.mono

/-- A change of the ring keeps what it leaves readable. -/
theorem Kept.withKeys {keys : DatabaseKeyManager} {v : Vault}
    (h : Kept crypto env v.store v.produced)
    (hlookup : ∀ r ∈ v.produced, ∀ keyId, r.envelope.SealedUnder r.envelope.scopeId keyId →
      keys.keys.lookup (r.envelope.scopeId, keyId) =
        v.store.keys.keys.lookup (r.envelope.scopeId, keyId)) :
    Kept crypto env (v.withKeys keys).store (v.withKeys keys).produced :=
  h.congr h.lookup (fun _ => rfl) fun r hr => decrypt_congr (hlookup r hr)

theorem Kept.step (hcrypto : crypto.Correct) {v : Vault} {op : Op}
    (h : Kept crypto env v.store v.produced) (hspares : op.Spares v)
    (hadm : Admissible env (v.step env crypto op).produced) :
    Kept crypto env (v.step env crypto op).store (v.step env crypto op).produced := by
  cases op with
  | register dbId keyId masterKey =>
    refine h.withKeys fun r hr used hused => ?_
    obtain hsame | ⟨hkey, hnew⟩ := registerDatabaseKey_lookup v.store.keys dbId keyId masterKey
      (r.envelope.scopeId, used)
    · exact hsame
    · obtain ⟨hscope, rfl⟩ := Prod.mk.inj hkey
      rw [hnew, hkey, hspares r hr (hscope ▸ hused)]
  | setActive dbId keyId =>
    refine h.withKeys fun r _ used _ => ?_
    rw [DatabaseKeyManager.setActiveDatabaseKey, rotateActiveKey_keys]
  | rotate dbId newKeyId =>
    refine h.withKeys fun r _ used _ => ?_
    rw [rotateActiveKey_keys]
  | setMode dbId mode =>
    refine h.withKeys fun r _ used _ => ?_
    rw [setDatabaseMode_keys]
  | loadProfiles profiles => exact h.withKeys fun _ _ _ _ => rfl
  | encrypt ctx plaintext entropy =>
    simp only [Vault.step]
    cases hsealed : sealedBy crypto v.store.keys ctx plaintext entropy with
    | none => simpa using h
    | some r =>
      obtain ⟨hseal, hid⟩ := sealedBy_eq_some hsealed
      exact h.seal hcrypto hseal hid
  | reencrypt ctx envelope progress entropy =>
    simp only [Vault.step]
    cases hsealed : resealedBy crypto v.store.keys ctx envelope progress entropy with
    | none => simpa using h
    | some r =>
      obtain ⟨hseal, hid⟩ := resealedBy_eq_some hsealed
      exact h.seal hcrypto hseal hid
  | putEncrypted ctx plaintext entropy =>
    simp only [Vault.step, sealedBy, EncryptedValueStore.putEncrypted] at hadm ⊢
    cases hseal : v.store.keys.encrypt crypto ctx plaintext entropy with
    | error err => simpa [hseal] using h
    | ok e =>
      rw [hseal] at hadm
      exact h.put (r := Sealed.put env ⟨ctx, plaintext, e, none⟩) hcrypto hseal rfl hadm
  | getDecrypted ctx valueId =>
    simp only [Vault.step, getDecrypted_snd]
    exact h.read valueId
  | sweep ctx items progress => exact h.sweep hcrypto hadm

theorem step_produced (env : Env) (crypto : Crypto) (v : Vault) (op : Op) :
    ∃ more, (v.step env crypto op).produced = v.produced ++ more := by
  cases op with
  | register | setActive | rotate | setMode | loadProfiles | getDecrypted =>
    exact ⟨[], (List.append_nil _).symm⟩
  | encrypt | reencrypt | putEncrypted | sweep => exact ⟨_, rfl⟩

end Keeping

section Runs
variable {env : Env} {crypto : Crypto} {config : ValueStoreConfig}

theorem SparingRun.of_append {earlier later : List Op}
    (h : SparingRun env crypto config (earlier ++ later)) :
    SparingRun env crypto config earlier := by
  rintro before op after rfl
  exact h before op (after ++ later) (by simp)

theorem sparingRun_of_get {ops : List Op} (h : ∀ i : Fin ops.length,
      (ops.get i).Spares (Vault.run env crypto config (ops.take i))) :
    SparingRun env crypto config ops := by
  rintro earlier op later rfl
  simpa using h ⟨earlier.length, by simp⟩

theorem run_concat (ops : List Op) (op : Op) :
    Vault.run env crypto config (ops ++ [op]) =
      (Vault.run env crypto config ops).step env crypto op := by
  rw [Vault.run, List.foldl_append]
  rfl

/-- The record of a run grows. -/
theorem run_produced (env : Env) (crypto : Crypto) (config : ValueStoreConfig)
    (earlier later : List Op) :
    ∃ more, (Vault.run env crypto config (earlier ++ later)).produced =
      (Vault.run env crypto config earlier).produced ++ more := by
  induction later using List.reverseRecOn with
  | nil => exact ⟨[], by simp⟩
  | append_singleton later op ih =>
    obtain ⟨more, hmore⟩ := ih
    obtain ⟨last, hlast⟩ := step_produced env crypto
      (Vault.run env crypto config (earlier ++ later)) op
    refine ⟨more ++ last, ?_⟩
    rw [← List.append_assoc, run_concat, hlast, hmore, List.append_assoc]

/-- A run whose registrations spare the keys in use keeps everything it produces. -/
theorem run_kept (hcrypto : crypto.Correct) {ops : List Op}
    (hspares : SparingRun env crypto config ops)
    (hadm : Admissible env (Vault.run env crypto config ops).produced) :
    Kept crypto env (Vault.run env crypto config ops).store
      (Vault.run env crypto config ops).produced := by
  induction ops using List.reverseRecOn with
  | nil =>
    refine ⟨new_lookupInv config, ?_, ?_, ?_, ?_⟩
    · simp [Vault.run, Vault.new]
    · simp [Vault.run, Vault.new]
    · simp [Vault.run, Vault.new]
    · simp [Vault.run, Vault.new, ValueStore.new, ValueStore.entryById]
  | append_singleton ops op ih =>
    obtain ⟨more, hmore⟩ := run_produced env crypto config ops [op]
    have hadm' : Admissible env (Vault.run env crypto config ops).produced := by
      rw [hmore] at hadm
      exact hadm.mono
    rw [run_concat] at hadm ⊢
    exact (ih hspares.of_append hadm').step hcrypto (hspares ops op [] rfl) hadm

/-- A value that was put is read back. -/
theorem Kept.getDecrypted {v : EncryptedValueStore} {produced : List Sealed}
    (h : Kept crypto env v produced) (hadm : Admissible env produced) {r : Sealed}
    (hr : r ∈ produced) {id : ValueId} (hid : r.valueId = some id) :
    (v.readEnvelope id).1 = .ok r.envelope ∧
      (v.getDecrypted crypto r.ctx id).1 = .ok r.plaintext := by
  obtain ⟨-, hheld⟩ := h.held r hr id hid
  have hsmall := hadm.small r.envelope.storedBytes ⟨r, hr, by simp [hid], rfl⟩
  have hread := (readEnvelope_eq_ok h.lookup).mpr ⟨_, hheld, rfl,
    fromStoredBytes_storedBytes (h.version r hr) hsmall⟩
  exact ⟨hread, getDecrypted_eq_ok.mpr ⟨r.envelope, hread, h.opens r hr⟩⟩

/-- A sweep from a store that keeps what was produced. -/
theorem Kept.sweepSafe (hcrypto : crypto.Correct) {v : EncryptedValueStore}
    {produced : List Sealed} (h : Kept crypto env v produced) {ctx : EncryptionContext}
    {items : List SweepItem} {progress : ReencryptionProgress}
    (hadm : Admissible env (produced ++ sweepWrites env crypto ctx v progress items)) :
    SweepSafe env crypto v ctx items (v.reencryptValues env crypto ctx items progress).1
      (v.reencryptValues env crypto ctx items progress).2.2 := by
  have hextends := reencryptValues_extends env crypto ctx v items progress
  have hswept := h.sweep hcrypto hadm
  refine ⟨fun ctx' id plaintext hplain => hextends.getDecrypted h.lookup hplain, ?_, ?_⟩
  · intro mapping hmapping old new hmem
    obtain ⟨e, r, entropy, hr, rfl, hid, hread, hopen, -⟩ := sweep_moved h.lookup hmapping hmem
    refine ⟨r.plaintext, ?_, (hswept.getDecrypted hadm (List.mem_append_right _ hr) hid).2⟩
    exact getDecrypted_eq_ok.mpr ⟨e, hread, by rw [hextends.keys, hopen]⟩
  · intro mapping hmapping again hheld progress'
    refine sweep_current hswept.lookup (fun item hitem => ?_) progress'
    rw [hextends.keys]
    obtain hnew | ⟨hold, hskipped⟩ := hheld item hitem
    · obtain ⟨⟨old, new⟩, hmem, rfl⟩ := List.mem_map.mp hnew
      obtain ⟨e, r, entropy, hr, rfl, hid, -, -, hseal⟩ := sweep_moved h.lookup hmapping hmem
      exact ⟨r.envelope, (hswept.getDecrypted hadm (List.mem_append_right _ hr) hid).1,
        current_of_encrypt hseal⟩
    · exact sweep_skipped h.lookup hmapping hold hskipped

end Runs

section Sample

def zeros (n : ℕ) : ByteArr n := ⟨List.replicate n 0, List.length_replicate⟩

def repeated (n : ℕ) (b : UInt8) : ByteArr n := ⟨List.replicate n b, List.length_replicate⟩

/-- One message sealed with AES-256-GCM-SIV. -/
structure Seal where
  key : ByteArr 32
  nonce : ByteArr 12
  aad : Bytes
  msg : Bytes
  ciphertext : Bytes
  deriving DecidableEq

/-- The content keys of some master keys and the seals made with them. -/
def tableCrypto (contentKeys : List (ByteArr 32 × ByteArr 32)) (seals : List Seal) : Crypto where
  sha256 _ := zeros 32
  hkdf _ masterKey _ n :=
    if h : n = 32 then h ▸ (contentKeys.lookup masterKey).getD (zeros 32) else zeros n
  encrypt key nonce aad msg :=
    (seals.find? fun s => s.key = key ∧ s.nonce = nonce ∧ s.aad = aad ∧ s.msg = msg).map
      (·.ciphertext)
  decrypt key nonce aad ciphertext :=
    (seals.find? fun s =>
      s.key = key ∧ s.nonce = nonce ∧ s.aad = aad ∧ s.ciphertext = ciphertext).map (·.msg)

theorem tableCrypto_correct {contentKeys : List (ByteArr 32 × ByteArr 32)} {seals : List Seal}
    (h : ∀ s ∈ seals, ∀ t ∈ seals, s.ciphertext = t.ciphertext → s = t) :
    (tableCrypto contentKeys seals).Correct ∧ (tableCrypto contentKeys seals).RejectsOtherKeys := by
  have hseal : ∀ key nonce aad msg ciphertext,
      (tableCrypto contentKeys seals).encrypt key nonce aad msg = some ciphertext →
      (⟨key, nonce, aad, msg, ciphertext⟩ : Seal) ∈ seals := by
    intro key nonce aad msg ciphertext hencrypt
    obtain ⟨s, hs, rfl⟩ := Option.map_eq_some_iff.mp hencrypt
    have hfound := List.find?_some hs
    simp only [decide_eq_true_eq] at hfound
    obtain ⟨rfl, rfl, rfl, rfl⟩ := hfound
    exact List.mem_of_find?_eq_some hs
  refine ⟨?_, ?_⟩
  · intro key nonce aad msg ciphertext hencrypt
    have hmem := hseal key nonce aad msg ciphertext hencrypt
    simp only [tableCrypto]
    cases hfind : seals.find? fun s =>
        s.key = key ∧ s.nonce = nonce ∧ s.aad = aad ∧ s.ciphertext = ciphertext with
    | none =>
      have hnone := List.find?_eq_none.mp hfind _ hmem
      simp at hnone
    | some t =>
      have hfound := List.find?_some hfind
      simp only [decide_eq_true_eq] at hfound
      rw [h t (List.mem_of_find?_eq_some hfind) _ hmem hfound.2.2.2]
      rfl
  · intro key key' nonce aad msg ciphertext hencrypt hother
    have hmem := hseal key nonce aad msg ciphertext hencrypt
    simp only [tableCrypto, Option.map_eq_none_iff, List.find?_eq_none, decide_eq_true_eq]
    rintro t ht ⟨hkey, -, -, hcipher⟩
    rw [h t ht _ hmem hcipher] at hkey
    exact hother hkey.symm

def sampleContext : EncryptionContext :=
  ⟨['a', 'p', 'p'], ['u', 's', 'e', 'r', 's'], ['e', 'm', 'a', 'i', 'l'], .cell, 1⟩

def contentKeyA : ByteArr 32 :=
  ⟨[128, 6, 104, 222, 212, 71, 90, 143, 26, 187, 103, 90, 193, 241, 138, 220, 116, 111, 74, 216,
    180, 91, 48, 5, 157, 101, 227, 213, 134, 46, 224, 74], rfl⟩

def contentKeyB : ByteArr 32 :=
  ⟨[29, 48, 29, 20, 141, 180, 204, 183, 223, 151, 23, 122, 121, 20, 127, 103, 84, 160, 234, 76,
    99, 109, 26, 94, 24, 39, 225, 169, 226, 186, 152, 209], rfl⟩

def sampleAad : Bytes :=
  [25, 115, 107, 101, 105, 110, 100, 98, 45, 101, 110, 99, 114, 121, 112, 116, 105, 111, 110, 45,
    97, 97, 100, 45, 118, 49, 3, 97, 112, 112, 5, 117, 115, 101, 114, 115, 5, 101, 109, 97, 105,
    108, 1, 1, 0, 0, 0]

/-- The message `hi` under the content keys of two master keys. -/
def sampleCrypto : Crypto :=
  tableCrypto [(repeated 32 1, contentKeyA), (repeated 32 2, contentKeyB)]
    [⟨contentKeyA, repeated 12 7, sampleAad, [104, 105],
        [28, 125, 149, 74, 151, 66, 98, 164, 122, 237, 221, 141, 227, 20, 27, 60, 153, 166]⟩,
      ⟨contentKeyB, repeated 12 9, sampleAad, [104, 105],
        [60, 92, 132, 196, 216, 137, 65, 176, 96, 98, 225, 212, 248, 24, 184, 91, 229, 108]⟩]

def sampleIdA : ValueId :=
  ⟨[73, 229, 194, 208, 80, 251, 16, 149, 98, 153, 0, 162, 42, 50, 79, 130], rfl⟩

def sampleIdB : ValueId :=
  ⟨[242, 209, 254, 107, 197, 74, 72, 120, 79, 60, 139, 171, 86, 195, 253, 170], rfl⟩

/-- The two envelopes differ in their key ids, at byte nine of their stored forms. -/
def sampleHash : Env :=
  ⟨fun bytes => if bytes.getD 9 0 = 49 then sampleIdA else sampleIdB, fun _ _ => ⟨fun _ => none⟩⟩

def sampleConfig : ValueStoreConfig :=
  ⟨false, 64, ⟨1, 1, fun _ _ => false⟩, ⟨false, 0, 0, fun _ _ => false, 0, 0⟩⟩

/-- A key id registered twice, with an envelope sealed in between. -/
def reregistration : List Op :=
  [.register ['a', 'p', 'p'] ['k', '1'] (repeated 32 1), .setMode ['a', 'p', 'p'] .encRandom,
    .encrypt sampleContext [104, 105] (some (repeated 12 7)),
    .register ['a', 'p', 'p'] ['k', '1'] (repeated 32 2)]

def rotation : List Op :=
  [.register ['a', 'p', 'p'] ['k', '1'] (repeated 32 1), .setMode ['a', 'p', 'p'] .encRandom,
    .putEncrypted sampleContext [104, 105] (some (repeated 12 7)),
    .register ['a', 'p', 'p'] ['k', '2'] (repeated 32 2),
    .rotate ['a', 'p', 'p'] ['k', '2'],
    .sweep sampleContext [(sampleIdA, some (repeated 12 9))] (.new ['a', 'p', 'p'])]

theorem sampleCrypto_correct : sampleCrypto.Correct ∧ sampleCrypto.RejectsOtherKeys := by
  apply tableCrypto_correct
  decide

end Sample

/-- Key rotation is safe in every run whose registrations spare the keys in use. -/
theorem rotation_safe {env : Env} {crypto : Crypto} (hcrypto : crypto.Correct)
    (config : ValueStoreConfig) (ops : List Op)
    (hadm : Admissible env (Vault.run env crypto config ops).produced)
    (hspares : SparingRun env crypto config ops) : RotationSafe env crypto config ops := by
  have hkept := run_kept hcrypto hspares hadm
  have hgrows : ∀ earlier later, ops = earlier ++ later →
      (Vault.run env crypto config earlier).produced ⊆
        (Vault.run env crypto config ops).produced := by
    rintro earlier later rfl
    obtain ⟨more, hmore⟩ := run_produced env crypto config earlier later
    rw [hmore]
    exact List.subset_append_left _ _
  refine ⟨?_, ?_, ?_⟩
  · intro earlier later hops r hr
    exact hkept.opens r (hgrows earlier later hops hr)
  · intro earlier later hops r hr id hid
    exact (hkept.getDecrypted hadm (hgrows earlier later hops hr) hid).2
  · rintro earlier ctx items progress later rfl
    obtain ⟨more, hmore⟩ := run_produced env crypto config
      (earlier ++ [.sweep ctx items progress]) later
    rw [List.append_assoc, List.singleton_append] at hmore
    rw [hmore, run_concat] at hadm
    have hswept := hadm.mono
    exact (run_kept hcrypto hspares.of_append hswept.mono).sweepSafe hcrypto hswept

/-- A value is put under one key and swept to the next. -/
theorem rotation_safe_sweep :
    (Vault.run sampleHash sampleCrypto sampleConfig rotation).produced.map (·.valueId) =
        [some sampleIdA, some sampleIdB] ∧
      RotationSafe sampleHash sampleCrypto sampleConfig rotation := by
  refine ⟨by decide +kernel, rotation_safe sampleCrypto_correct.1 sampleConfig rotation ?_ ?_⟩
  · apply admissible_of_forall
    · decide +kernel
    · decide +kernel
  · apply sparingRun_of_get
    decide +kernel

/-- A key id registered again with other material makes an envelope sealed before unreadable. -/
theorem reregistered_key_unsafe :
    sampleCrypto.Correct ∧ sampleCrypto.RejectsOtherKeys ∧
      Admissible sampleHash
        (Vault.run sampleHash sampleCrypto sampleConfig reregistration).produced ∧
      ¬ RotationSafe sampleHash sampleCrypto sampleConfig reregistration := by
  refine ⟨sampleCrypto_correct.1, sampleCrypto_correct.2, ?_, fun h => ?_⟩
  · apply admissible_of_forall
    · decide +kernel
    · decide +kernel
  · have hopens := h.opens (reregistration.take 3) (reregistration.drop 3) rfl
    have hclosed : ¬ ∀ r ∈ (Vault.run sampleHash sampleCrypto sampleConfig
        (reregistration.take 3)).produced,
        ((Vault.run sampleHash sampleCrypto sampleConfig reregistration).store.keys.decrypt
          sampleCrypto r.ctx r.envelope).toOption = some r.plaintext := by
      decide +kernel
    exact hclosed fun r hr => by rw [hopens r hr]; rfl

end SkeinDB.Encryption
