import SkeinDB.Encryption.EncryptedStore

/-!
# The re-encryption sweep

What the re-encryption of stored values does, one value at a time and over a batch: a current
envelope is left alone, any other is opened and sealed again under a new id.
-/
namespace SkeinDB.Encryption
open SkeinDB.Codec SkeinDB.Format SkeinDB.Values

/-- An envelope produced by a run: what it seals, under which context, and its id if it was put
into the value store. -/
structure Sealed where
  ctx : EncryptionContext
  plaintext : Bytes
  envelope : EncryptionEnvelope
  valueId : Option ValueId
  deriving DecidableEq

section Produced
variable (env : Env) (crypto : Crypto)

/-- What an encryption produces. -/
def sealedBy (m : DatabaseKeyManager) (ctx : EncryptionContext) (plaintext : Bytes)
    (entropy : Option (ByteArr 12)) : Option Sealed :=
  match m.encrypt crypto ctx plaintext entropy with
  | .error _ => none
  | .ok envelope => some ⟨ctx, plaintext, envelope, none⟩

/-- What a re-encryption produces: the envelope is not current, opens and is sealed again. -/
def resealedBy (m : DatabaseKeyManager) (ctx : EncryptionContext) (envelope : EncryptionEnvelope)
    (progress : ReencryptionProgress) (entropy : Option (ByteArr 12)) : Option Sealed :=
  match m.decrypt crypto ctx envelope,
      (m.reencryptEnvelope crypto ctx envelope progress entropy).1 with
  | .ok plaintext, .ok (some envelope) => some ⟨ctx, plaintext, envelope, none⟩
  | _, _ => none

def Sealed.put (r : Sealed) : Sealed :=
  { r with valueId := some (env.valueId r.envelope.storedBytes) }

/-- What the re-encryption of a stored value writes. -/
def written (v : EncryptedValueStore) (ctx : EncryptionContext) (item : SweepItem)
    (progress : ReencryptionProgress) : Option Sealed :=
  match (v.readEnvelope item.1).1 with
  | .error _ => none
  | .ok envelope => (resealedBy crypto v.keys ctx envelope progress item.2).map (Sealed.put env)

/-- What a sweep writes before it ends. -/
def sweepWrites (ctx : EncryptionContext) :
    EncryptedValueStore → ReencryptionProgress → List SweepItem → List Sealed
  | _, _, [] => []
  | v, progress, item :: items =>
    (written env crypto v ctx item progress).toList ++
      match v.reencryptValue env crypto ctx item.1 progress item.2 with
      | (.error _, _, _) => []
      | (.ok _, progress, v) => sweepWrites ctx v progress items

end Produced

section Rewriting
variable {env : Env} {crypto : Crypto} {ctx : EncryptionContext}

theorem sealedBy_eq_some {m : DatabaseKeyManager} {plaintext : Bytes}
    {entropy : Option (ByteArr 12)} {r : Sealed}
    (h : sealedBy crypto m ctx plaintext entropy = some r) :
    m.encrypt crypto r.ctx r.plaintext entropy = .ok r.envelope ∧ r.valueId = none := by
  unfold sealedBy at h
  cases hseal : m.encrypt crypto ctx plaintext entropy with
  | error err => simp [hseal] at h
  | ok e =>
    rw [hseal] at h
    cases h
    exact ⟨hseal, rfl⟩

theorem resealedBy_eq_some {m : DatabaseKeyManager} {e : EncryptionEnvelope}
    {progress : ReencryptionProgress} {entropy : Option (ByteArr 12)} {r : Sealed}
    (h : resealedBy crypto m ctx e progress entropy = some r) :
    m.encrypt crypto r.ctx r.plaintext entropy = .ok r.envelope ∧ r.valueId = none := by
  unfold resealedBy at h
  split at h
  · rename_i plaintext e' hplain hseal
    cases h
    obtain ⟨hnone, -⟩ | ⟨found, plaintext', hfound, hplain', hseal⟩ := reencryptEnvelope_eq_ok hseal
    · cases hnone
    · cases hfound
      rw [hplain] at hplain'
      cases hplain'
      exact ⟨hseal, rfl⟩
  · cases h

/-- The outcomes of the re-encryption of one stored value, with what it writes. -/
theorem reencryptValue_cases (env : Env) (crypto : Crypto) (ctx : EncryptionContext)
    (v : EncryptedValueStore) (item : SweepItem)
    (progress : ReencryptionProgress) :
    let w := (v.readEnvelope item.1).2
    (∃ err progress', written env crypto v ctx item progress = none ∧
      v.reencryptValue env crypto ctx item.1 progress item.2 = (.error err, progress', w)) ∨
    (∃ e progress', written env crypto v ctx item progress = none ∧
      (v.readEnvelope item.1).1 = .ok e ∧ Current v.keys ctx e ∧
      v.reencryptValue env crypto ctx item.1 progress item.2 = (.ok none, progress', w)) ∨
    (∃ e r progress', written env crypto v ctx item progress = some r ∧ r.ctx = ctx ∧
      r.valueId = some (env.valueId r.envelope.storedBytes) ∧
      (v.readEnvelope item.1).1 = .ok e ∧ v.keys.decrypt crypto ctx e = .ok r.plaintext ∧
      v.keys.encrypt crypto ctx r.plaintext item.2 = .ok r.envelope ∧
      v.reencryptValue env crypto ctx item.1 progress item.2 =
        (.ok (some (env.valueId r.envelope.storedBytes)), progress',
          { w with inner := (w.inner.put env .cell r.envelope.storedBytes).1 })) := by
  have hkeys := readEnvelope_keys v item.1
  simp only [EncryptedValueStore.reencryptValue, written]
  cases hread : v.readEnvelope item.1 with
  | mk result w =>
    rw [hread] at hkeys
    simp only at hkeys
    cases result with
    | error err => exact Or.inl ⟨err, progress, rfl, rfl⟩
    | ok e =>
      simp only [hkeys]
      cases hre : v.keys.reencryptEnvelope crypto ctx e progress item.2 with
      | mk outcome progress' =>
        have houtcome : (v.keys.reencryptEnvelope crypto ctx e progress item.2).1 = outcome := by
          rw [hre]
        cases outcome with
        | error err =>
          refine Or.inl ⟨.encryption err, progress', ?_, rfl⟩
          simp [resealedBy, houtcome]
        | ok found =>
          obtain ⟨rfl, hcurrent⟩ | ⟨e', plaintext, rfl, hplain, hseal⟩ :=
            reencryptEnvelope_eq_ok houtcome
          · refine Or.inr (Or.inl ⟨e, progress', ?_, rfl, hcurrent, rfl⟩)
            simp [resealedBy, houtcome]
          · let r := Sealed.put env ⟨ctx, plaintext, e', none⟩
            refine Or.inr (Or.inr ⟨e, r, progress', ?_, rfl, rfl, rfl, hplain, hseal, ?_⟩)
            · simp [r, resealedBy, houtcome, hplain]
            · simp only [put_snd]
              rfl

/-- A re-encryption of a current value writes nothing. -/
theorem reencryptValue_current (env : Env) (crypto : Crypto) {v : EncryptedValueStore}
    {id : ValueId} {e : EncryptionEnvelope} (he : (v.readEnvelope id).1 = .ok e) (hcurrent : Current v.keys ctx e)
    (progress : ReencryptionProgress) (entropy : Option (ByteArr 12)) :
    ∃ progress', progress'.envelopesRewritten = progress.envelopesRewritten ∧
      v.reencryptValue env crypto ctx id progress entropy =
        (.ok none, progress', (v.readEnvelope id).2) := by
  have hkeys := readEnvelope_keys v id
  obtain ⟨progress', hre, hcount⟩ := reencryptEnvelope_current crypto entropy progress
    hcurrent
  refine ⟨progress', hcount, ?_⟩
  simp only [EncryptedValueStore.reencryptValue]
  cases hread : v.readEnvelope id with
  | mk result w =>
    rw [hread] at hkeys he
    simp only at hkeys he
    simp only [he, hkeys, hre]

theorem reencryptValue_extends (env : Env) (crypto : Crypto) (ctx : EncryptionContext)
    (v : EncryptedValueStore) (item : SweepItem)
    (progress : ReencryptionProgress) :
    Extends v (v.reencryptValue env crypto ctx item.1 progress item.2).2.2 := by
  have hread := Extends.read v item.1
  obtain ⟨err, progress', -, hre⟩ | ⟨e, progress', -, -, -, hre⟩ |
    ⟨e, r, progress', -, -, -, -, -, -, hre⟩ :=
      reencryptValue_cases env crypto ctx v item progress
  · rw [hre]
    exact hread
  · rw [hre]
    exact hread
  · rw [hre]
    exact hread.trans (Extends.put env _ _)

theorem reencryptValues_extends (env : Env) (crypto : Crypto) (ctx : EncryptionContext)
    (v : EncryptedValueStore) (items : List SweepItem)
    (progress : ReencryptionProgress) :
    Extends v (v.reencryptValues env crypto ctx items progress).2.2 := by
  induction items generalizing v progress with
  | nil => exact Extends.refl v
  | cons item items ih =>
    have hfirst := reencryptValue_extends env crypto ctx v item progress
    simp only [EncryptedValueStore.reencryptValues]
    cases hre : v.reencryptValue env crypto ctx item.1 progress item.2 with
    | mk result rest =>
      rw [hre] at hfirst
      cases result with
      | error err => exact hfirst
      | ok newId =>
        have hrest := hfirst.trans (ih rest.2 rest.1)
        simp only
        split
        · rename_i hsweep
          rwa [hsweep] at hrest
        · rename_i hsweep
          rwa [hsweep] at hrest

end Rewriting

section Sweep
variable {env : Env} {crypto : Crypto} {ctx : EncryptionContext}

/-- The first step of a sweep that succeeds, and the sweep of the rest. -/
theorem reencryptValues_cons {v : EncryptedValueStore} {item : SweepItem}
    {items : List SweepItem} {progress : ReencryptionProgress}
    {mapping : List (ValueId × ValueId)}
    (h : (v.reencryptValues env crypto ctx (item :: items) progress).1 = .ok mapping) :
    ∃ newId progress' w rest, v.reencryptValue env crypto ctx item.1 progress item.2 =
        (.ok newId, progress', w) ∧
      (w.reencryptValues env crypto ctx items progress').1 = .ok rest ∧
      mapping = newId.toList.map (item.1, ·) ++ rest ∧
      (v.reencryptValues env crypto ctx (item :: items) progress).2.2 =
        (w.reencryptValues env crypto ctx items progress').2.2 ∧
      sweepWrites env crypto ctx v progress (item :: items) =
        (written env crypto v ctx item progress).toList ++
          sweepWrites env crypto ctx w progress' items := by
  simp only [EncryptedValueStore.reencryptValues] at h ⊢
  cases hre : v.reencryptValue env crypto ctx item.1 progress item.2 with
  | mk result rest =>
    rw [hre] at h
    cases result with
    | error err => cases h
    | ok newId =>
      simp only at h ⊢
      cases hsweep : rest.2.reencryptValues env crypto ctx items rest.1 with
      | mk result' rest' =>
        rw [hsweep] at h
        cases result' with
        | error err => cases h
        | ok mapping' =>
          refine ⟨newId, rest.1, rest.2, mapping', rfl, by rw [hsweep], ?_, by rw [hsweep], ?_⟩
          · exact (Except.ok.inj h).symm
          · simp only [sweepWrites, hre]

/-- A rewritten value is open under its old id, and what was written under the new one seals the
same plaintext. -/
theorem sweep_moved {v : EncryptedValueStore} (hv : LookupInv v.inner) {items : List SweepItem}
    {progress : ReencryptionProgress} {mapping : List (ValueId × ValueId)}
    (h : (v.reencryptValues env crypto ctx items progress).1 = .ok mapping)
    {old new : ValueId} (hmem : (old, new) ∈ mapping) :
    ∃ e r entropy, r ∈ sweepWrites env crypto ctx v progress items ∧ r.ctx = ctx ∧
      r.valueId = some new ∧
      ((v.reencryptValues env crypto ctx items progress).2.2.readEnvelope old).1 = .ok e ∧
      v.keys.decrypt crypto ctx e = .ok r.plaintext ∧
      v.keys.encrypt crypto ctx r.plaintext entropy = .ok r.envelope := by
  induction items generalizing v progress mapping with
  | nil =>
    cases h
    cases hmem
  | cons item items ih =>
    have hall := reencryptValues_extends env crypto ctx v (item :: items) progress
    have hfirst := reencryptValue_extends env crypto ctx v item progress
    obtain ⟨newId, progress', w, rest, hre, hrest, rfl, hsnd, hwrites⟩ := reencryptValues_cons h
    rw [hre] at hfirst
    obtain hmem | hmem := List.mem_append.mp hmem
    · obtain ⟨err, _, -, hcase⟩ | ⟨e, _, -, -, -, hcase⟩ |
        ⟨e, r, _, hwritten, hctx, hid, hread, hplain, hseal, hcase⟩ :=
          reencryptValue_cases env crypto ctx v item progress
      · rw [hre] at hcase
        cases hcase
      · rw [hre] at hcase
        cases hcase
        cases hmem
      · rw [hre] at hcase
        cases hcase
        simp only [Option.toList_some, List.map_cons, List.map_nil, List.mem_singleton,
          Prod.mk.injEq] at hmem
        obtain ⟨rfl, rfl⟩ := hmem
        refine ⟨e, r, item.2, ?_, hctx, hid, hall.readEnvelope hv hread, hplain, hseal⟩
        rw [hwrites, hwritten]
        simp
    · obtain ⟨e, r, entropy, hr, hctx, hid, hread, hplain, hseal⟩ :=
        ih (hfirst.lookup hv) hrest hmem
      rw [hfirst.keys] at hplain hseal
      refine ⟨e, r, entropy, ?_, hctx, hid, by rwa [hsnd], hplain, hseal⟩
      rw [hwrites]
      exact List.mem_append_right _ hr

/-- What a sweep has not rewritten is current. -/
theorem sweep_skipped {v : EncryptedValueStore} (hv : LookupInv v.inner) {items : List SweepItem}
    {progress : ReencryptionProgress} {mapping : List (ValueId × ValueId)}
    (h : (v.reencryptValues env crypto ctx items progress).1 = .ok mapping) {id : ValueId}
    (hitem : id ∈ items.map (·.1)) (hmem : id ∉ mapping.map (·.1)) :
    ∃ e, ((v.reencryptValues env crypto ctx items progress).2.2.readEnvelope id).1 = .ok e ∧
      Current v.keys ctx e := by
  induction items generalizing v progress mapping with
  | nil => cases hitem
  | cons item items ih =>
    have hall := reencryptValues_extends env crypto ctx v (item :: items) progress
    have hfirst := reencryptValue_extends env crypto ctx v item progress
    obtain ⟨newId, progress', w, rest, hre, hrest, rfl, hsnd, -⟩ := reencryptValues_cons h
    rw [hre] at hfirst
    rw [List.map_append, List.mem_append, not_or] at hmem
    obtain ⟨hhead, htail⟩ := hmem
    rw [List.map_cons, List.mem_cons] at hitem
    obtain rfl | hitem := hitem
    · obtain ⟨err, _, -, hcase⟩ | ⟨e, _, -, hread, hcurrent, -⟩ |
        ⟨e, r, _, -, -, -, -, -, -, hcase⟩ :=
          reencryptValue_cases env crypto ctx v item progress
      · rw [hre] at hcase
        cases hcase
      · exact ⟨e, hall.readEnvelope hv hread, hcurrent⟩
      · rw [hre] at hcase
        cases hcase
        simp at hhead
    · obtain ⟨e, hread, hcurrent⟩ := ih (hfirst.lookup hv) hrest hitem htail
      rw [hfirst.keys] at hcurrent
      exact ⟨e, by rwa [hsnd], hcurrent⟩

/-- A sweep over current values rewrites nothing. -/
theorem sweep_current {v : EncryptedValueStore} (hv : LookupInv v.inner)
    {items : List SweepItem} (h : ∀ item ∈ items, ∃ e, (v.readEnvelope item.1).1 = .ok e ∧
      Current v.keys ctx e) (progress : ReencryptionProgress) :
    ∃ progress' w, v.reencryptValues env crypto ctx items progress = (.ok [], progress', w) ∧
      progress'.envelopesRewritten = progress.envelopesRewritten ∧
      w.inner.entries = v.inner.entries := by
  induction items generalizing v progress with
  | nil => exact ⟨progress, v, rfl, rfl, rfl⟩
  | cons item items ih =>
    obtain ⟨e, he, hcurrent⟩ := h item (by simp)
    obtain ⟨progress', hcount, hre⟩ := reencryptValue_current env crypto he
      hcurrent progress item.2
    have hrest : ∀ next ∈ items, ∃ e, ((v.readEnvelope item.1).2.readEnvelope next.1).1 = .ok e ∧
        Current (v.readEnvelope item.1).2.keys ctx e := by
      intro next hnext
      obtain ⟨e, he, hcurrent⟩ := h next (List.mem_cons_of_mem item hnext)
      exact ⟨e, (Extends.read v item.1).readEnvelope hv he, by rwa [readEnvelope_keys]⟩
    obtain ⟨progress'', w, hsweep, hcount', hentries⟩ :=
      ih (readEnvelope_lookupInv hv item.1) hrest progress'
    refine ⟨progress'', w, ?_, hcount'.trans hcount, ?_⟩
    · simp only [EncryptedValueStore.reencryptValues, hre, hsweep]
      rfl
    · rw [hentries, readEnvelope_entries]

end Sweep

end SkeinDB.Encryption
