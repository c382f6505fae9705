import SkeinDB.Values.Deferral
import SkeinDB.Values.ObjectsPull
import SkeinDB.Values.PatchSafety

/-!
# Pulls that may panic

`objects_pull` of `skeindb/src/server.rs` once more, with what may panic checked: `parse_value_id`
cuts the text of a request at byte positions, and the verification applies the patches of a peer,
whose lengths may ask for more than a vector can have. Where no id is cut inside a character, the
ids are queued as without the checks, and where the patches fit, a round is the one without them.
-/
namespace SkeinDB.Values
open SkeinDB.Codec SkeinDB.Format SkeinDB.Delta Codec.Checked

section Ids

/-- The first pairs of bytes of a text as numbers. A character of two bytes is a pair, and no
digits; a pair that ends inside a character is a fault. -/
def hexPairsRun : ℕ → List Char → Except Fault (Option Bytes)
  | 0, _ => .ok (some [])
  | _ + 1, [] => .error .outOfBounds
  | n + 1, a :: rest =>
    if a.utf8Size = 2 then .ok none
    else match rest with
      | [] => .error .outOfBounds
      | b :: rest =>
        if a.utf8Size ≠ 1 ∨ b.utf8Size ≠ 1 then .error .outOfBounds
        else match fromStrRadix16 a b with
          | none => .ok none
          | some byte => (hexPairsRun n rest).map (Option.map (byte :: ·))

/-- `parse_value_id` with its slices checked. -/
def parseValueIdRun (hex : String) : Except Fault (Option ValueId) :=
  if byteLen hex ≠ 32 then .ok none
  else (hexPairsRun 16 hex.toList).map fun bytes =>
    bytes.bind fun bytes => if h : bytes.length = 16 then some ⟨bytes, h⟩ else none

/-- A pair of the bytes that are read of the text ends inside a character. -/
def SplitsCharacter (text : String) : Prop := parseValueIdRun text = .error .outOfBounds

instance (text : String) : Decidable (SplitsCharacter text) :=
  match h : parseValueIdRun text with
  | .error .outOfBounds => .isTrue h
  | .error .arithmeticOverflow => .isFalse fun h' => by cases h.symm.trans h'
  | .error .capacityOverflow => .isFalse fun h' => by cases h.symm.trans h'
  | .ok _ => .isFalse fun h' => by cases h.symm.trans h'

/-- The first loop, with the parsing of the ids checked. -/
def queueIdsRun (s : ValueStore) : PullState → Finset String → List String →
    Except Fault PullState
  | st, _, [] => .ok st
  | st, seen, rawId :: rawIds =>
    let normalized := normalizeId rawId
    if normalized = "" ∨ normalized ∈ seen then queueIdsRun s st seen rawIds
    else
      let seen := insert normalized seen
      match parseValueIdRun normalized with
      | .error fault => .error fault
      | .ok none => queueIdsRun s { st with invalidIds := st.invalidIds ++ [rawId] } seen rawIds
      | .ok (some id) =>
        if id ∈ s.index then
          queueIdsRun s { st with alreadyPresent := saturatingAdd st.alreadyPresent 1 } seen rawIds
        else if normalized ∈ st.queued then queueIdsRun s st seen rawIds
        else
          queueIdsRun s
            { st with
              pending := st.pending ++ [normalized]
              queued := insert normalized st.queued } seen rawIds

theorem utf8Size_of_le {c : Char} (h : c ≤ 'f') : c.utf8Size = 1 := by
  rw [Char.utf8Size]
  exact if_pos (UInt32.le_trans h (by decide))

theorem utf8Size_of_hex {c : Char} (h : c = '+' ∨ (toDigit16 c).isSome) : c.utf8Size = 1 := by
  rcases h with rfl | h
  · rfl
  · rw [toDigit16] at h
    split_ifs at h with hnum hlow hup
    · exact utf8Size_of_le (Char.le_trans hnum.2 (by decide))
    · exact utf8Size_of_le hlow.2
    · exact utf8Size_of_le (Char.le_trans hup.2 (by decide))
    · cases h

/-- What is not ASCII is no digit. -/
theorem fromStrRadix16_none {a b : Char} (h : a.utf8Size ≠ 1 ∨ b.utf8Size ≠ 1) :
    fromStrRadix16 a b = none := by
  by_contra hsome
  obtain ⟨byte, hbyte⟩ := Option.ne_none_iff_exists'.mp hsome
  rw [fromStrRadix16] at hbyte
  have hboth : a.utf8Size = 1 ∧ b.utf8Size = 1 := by
    split_ifs at hbyte with hplus
    · obtain ⟨n, hn, -⟩ := Option.map_eq_some_iff.mp hbyte
      exact ⟨utf8Size_of_hex (.inl hplus), utf8Size_of_hex (.inr (by simp [hn]))⟩
    · split at hbyte
      · rename_i ha hb
        exact ⟨utf8Size_of_hex (.inr (by simp [ha])), utf8Size_of_hex (.inr (by simp [hb]))⟩
      · cases hbyte
  omega

theorem parseHexPairs_cons (a b : Char) (rest : List Char) : parseHexPairs (a :: b :: rest) =
    (fromStrRadix16 a b).bind fun byte => (parseHexPairs rest).map (byte :: ·) := by
  rw [parseHexPairs]
  rcases fromStrRadix16 a b with _ | byte
  · rfl
  · rcases parseHexPairs rest with _ | bytes <;> rfl

/-- Where no pair ends inside a character, the pairs are those of the characters. -/
theorem hexPairsRun_cases {n : ℕ} {chars : List Char} (h : (chars.map Char.utf8Size).sum = 2 * n) :
    hexPairsRun n chars = .ok (parseHexPairs chars) ∨ hexPairsRun n chars = .error .outOfBounds := by
  induction n generalizing chars with
  | zero =>
    rcases chars with _ | ⟨a, rest⟩
    · exact .inl rfl
    · have hpos := a.utf8Size_pos
      simp only [List.map_cons, List.sum_cons] at h
      omega
  | succ n ih =>
    rcases chars with _ | ⟨a, rest⟩
    · simp at h
    rw [hexPairsRun.eq_def]
    dsimp only
    split
    · rename_i htwo
      left
      rcases rest with _ | ⟨b, rest⟩
      · rfl
      · rw [parseHexPairs_cons, fromStrRadix16_none (.inl (by omega))]
        rfl
    rcases rest with _ | ⟨b, rest⟩
    · exact .inr rfl
    dsimp only
    split
    · exact .inr rfl
    rename_i hone
    simp only [not_or, not_not] at hone
    rw [parseHexPairs_cons]
    rcases fromStrRadix16 a b with _ | byte
    · exact .inl rfl
    · have hrest : (rest.map Char.utf8Size).sum = 2 * n := by
        simp only [List.map_cons, List.sum_cons] at h
        omega
      rcases ih hrest with hok | hfault
      · left
        dsimp only
        rw [hok]
        rfl
      · right
        dsimp only
        rw [hfault]
        rfl

theorem parseValueIdRun_cases (text : String) :
    parseValueIdRun text = .ok (parseValueId text) ∨ SplitsCharacter text := by
  rw [SplitsCharacter, parseValueIdRun, parseValueId]
  by_cases hlen : byteLen text = 32
  · simp only [hlen, ne_eq, not_true_eq_false, if_false]
    rcases @hexPairsRun_cases 16 text.toList hlen with hok | hfault
    · left
      rw [hok]
      rcases parseHexPairs text.toList with _ | bytes <;> rfl
    · right
      rw [hfault]
      rfl
  · exact .inl (by rw [if_pos hlen, if_pos hlen])

variable {s : ValueStore}

/-- The ids are queued as without the checks, if none of them splits a character. -/
theorem queueIdsRun_eq {st : PullState} {seen : Finset String} {rawIds : List String}
    (h : ∀ rawId ∈ rawIds, ¬ SplitsCharacter (normalizeId rawId)) :
    queueIdsRun s st seen rawIds = .ok (queueIds s st seen rawIds) := by
  induction rawIds generalizing st seen with
  | nil => rfl
  | cons rawId rawIds ih =>
    obtain ⟨hfirst, hrest⟩ := List.forall_mem_cons.mp h
    have hparse := (parseValueIdRun_cases (normalizeId rawId)).resolve_right hfirst
    rw [queueIdsRun, queueIds]
    dsimp only
    rw [hparse]
    split
    · exact ih hrest
    · rcases parseValueId (normalizeId rawId) with _ | id
      · exact ih hrest
      · dsimp only
        split
        · exact ih hrest
        split
        · exact ih hrest
        · exact ih hrest

/-- An id that splits a character ends the loop, whatever stands before it. -/
theorem queueIdsRun_fault {st : PullState} {seen : Finset String} {rawIds : List String}
    {rawId : String} (hraw : rawId ∈ rawIds) (hsplits : SplitsCharacter (normalizeId rawId))
    (hseen : normalizeId rawId ∉ seen) : ∃ fault, queueIdsRun s st seen rawIds = .error fault := by
  induction rawIds generalizing st seen with
  | nil => exact absurd hraw List.not_mem_nil
  | cons first rawIds ih =>
    have hne : normalizeId rawId ≠ "" := by
      intro hempty
      rw [hempty] at hsplits
      revert hsplits
      decide
    rw [queueIdsRun]
    dsimp only
    by_cases hfirst : normalizeId first = normalizeId rawId
    · rw [hfirst, if_neg (not_or.mpr ⟨hne, hseen⟩), hsplits]
      exact ⟨_, rfl⟩
    · have hrest : rawId ∈ rawIds :=
        (List.mem_cons.mp hraw).resolve_left fun heq => hfirst (by rw [heq])
      have hseen' : normalizeId rawId ∉ insert (normalizeId first) seen := by
        rw [Finset.mem_insert, not_or]
        exact ⟨Ne.symm hfirst, hseen⟩
      split
      · exact ih hrest hseen
      rcases parseValueIdRun (normalizeId first) with fault | _ | id
      · exact ⟨fault, rfl⟩
      · exact ih hrest hseen'
      · dsimp only
        split
        · exact ih hrest hseen'
        split
        · exact ih hrest hseen'
        · exact ih hrest hseen'

end Ids

section Model

def checkPatchedRun (env : Env) (id : ValueId) (delta : DeltaEntry) (baseBytes patch : Bytes) :
    Codec.Checked ValueStoreError Bytes := do
  let value ← applyPatchRun baseBytes patch
  if value.length ≠ delta.fullLen then .error (.err .deltaLengthMismatch)
  else if env.valueId value ≠ id then .error (.err .invalidDelta)
  else .ok value

def materializeTransferEntryRun {σ : Type*} (env : Env) (id : ValueId) (entry : ValueEntry)
    (baseResolver : ValueId → σ → Option (Codec.Checked ValueStoreError Bytes × σ)) (state : σ) :
    Option (Codec.Checked ValueStoreError Bytes × σ) :=
  if entry.kind ≠ .delta then
    if env.valueId entry.bytes ≠ id then
      some (.error (.err (.invalidSegmentEntry .transferIdMismatch)), state)
    else some (.ok entry.bytes, state)
  else match entry.delta with
    | none => some (.error (.err .invalidDelta), state)
    | some delta =>
      match baseResolver delta.base state with
      | none => none
      | some (.error e, state) => some (.error e, state)
      | some (.ok baseBytes, state) =>
        some (checkPatchedRun env id delta baseBytes entry.bytes, state)

def mapStop {ε ε' : Type} (f : ε → ε') : Stop ε → Stop ε'
  | .fault fault => .fault fault
  | .err e => .err (f e)

/-- The local store applies patches whose values are those of vectors: they fit. -/
def stagedResolverRun (env : Env) (s : ValueStore) (staged : List ValueSegmentEntry)
    (recurse : ValueId → ValueEntry → StagedCache →
      Option (Codec.Checked TransferMaterializeError Bytes × StagedCache))
    (baseId : ValueId) (cache : StagedCache) :
    Option (Codec.Checked ValueStoreError Bytes × StagedCache) :=
  match cache baseId with
  | some hit => some (.ok hit, cache)
  | none =>
    match findStaged staged baseId with
    | some e => (recurse baseId e.entry cache).map fun r =>
        (r.1.mapError (mapStop (·.toStore)), r.2)
    | none => (materialize env s baseId).map fun r => (lift r, cache)

def materializeStagedRun (env : Env) (s : ValueStore) (staged : List ValueSegmentEntry) :
    ℕ → ValueId → ValueEntry → List ValueId → StagedCache →
      Option (Codec.Checked TransferMaterializeError Bytes × StagedCache)
  | 0, _, _, _, _ => none
  | fuel + 1, id, entry, visiting, cache =>
    match cache id with
    | some hit => some (.ok hit, cache)
    | none =>
      if id ∈ visiting then some (.error (.err .invalid), cache)
      else
        let recurse (baseId : ValueId) (entry : ValueEntry) (cache : StagedCache) :=
          materializeStagedRun env s staged fuel baseId entry (id :: visiting) cache
        match materializeTransferEntryRun env id entry
            (stagedResolverRun env s staged recurse) cache with
        | none => none
        | some (.ok bytes, cache) => some (.ok bytes, Function.update cache id (some bytes))
        | some (.error stop, cache) => some (.error (mapStop (.ofStore) stop), cache)

def verifyStagedRun (env : Env) (s : ValueStore) (staged : List ValueSegmentEntry) :
    List ValueSegmentEntry → StagedCache →
      Option (Except Fault (List (ValueSegmentEntry × Bytes) × List ValueId))
  | [], _ => some (.ok ([], []))
  | e :: es, cache =>
    match materializeStagedRun env s staged (staged.length + 1) e.id e.entry [] cache with
    | none => none
    | some (.error (.fault fault), _) => some (.error fault)
    | some (.error (.err .deferred), cache) => verifyStagedRun env s staged es cache
    | some (.error (.err .invalid), cache) =>
      (verifyStagedRun env s staged es cache).map (·.map fun (ready, failed) =>
        (ready, e.id :: failed))
    | some (.ok bytes, cache) =>
      (verifyStagedRun env s staged es cache).map (·.map fun (ready, failed) =>
        ((e, bytes) :: ready, failed))

/-- The import applies the verified patches once more, and those of the local store. -/
def verifyAndImportRun (env : Env) (st : PullState) :
    Option (Except Fault (Except PullError Unit × PullState)) :=
  match verifyStagedRun env st.store st.staged st.staged (fun _ => none) with
  | none => none
  | some (.error fault) => some (.error fault)
  | some (.ok (ready, failedIds)) => (importReady env (dropFailed st failedIds) ready).map .ok

def pullRoundRun (env : Env) (z : Zstd) (batchSize : ℕ) (st : PullState)
    (response : RemoteBatch) : Option (Except Fault (Except PullError Unit × PullState)) :=
  let batch := st.pending.take batchSize
  let st :=
    { st with pending := st.pending.drop batchSize, batches := saturatingAdd st.batches 1 }
  match response.objects with
  | .error err => some (.ok (.error (.rpc err), st))
  | .ok objects => verifyAndImportRun env (stageAnswer z batch response.order st objects)

def pullLoopRun (env : Env) (z : Zstd) (batchSize : ℕ) (summarize : PullState → PullSummary) :
    PullState → List RemoteBatch → Option (Except Fault (PullOutcome × PullState))
  | st, responses =>
    if st.pending.isEmpty then
      let lingering := st.staged.map fun e => valueIdToHex e.id
      let st := { st with verificationFailed := lingering.foldl noteOnce st.verificationFailed }
      some (.ok (.finished (summarize st), st))
    else match responses with
      | [] => some (.ok (.waiting, st))
      | response :: responses =>
        match pullRoundRun env z batchSize st response with
        | none => none
        | some (.error fault) => some (.error fault)
        | some (.ok (.error err, st)) => some (.ok (.failed err, st))
        | some (.ok (.ok (), st)) => pullLoopRun env z batchSize summarize st responses

/-- A pull with the answers that the peer has given so far, which may end in a panic. -/
def objectsPullRun (env : Env) (z : Zstd) (s : ValueStore) (params : ObjectsPullParams)
    (client : Except Cluster.RpcError Unit) (responses : List RemoteBatch) :
    Option (Except Fault (PullOutcome × PullState)) :=
  let sourceRpcUrl := trim params.sourceRpcUrl
  if sourceRpcUrl = "" then
    some (.ok (.failed (.rpc ⟨"invalid_request", "source_rpc_url is required"⟩), .start s))
  else
    let batchSize := normalizeObjectsPullBatchSize params.batchSize
    match queueIdsRun s (.start s) ∅ params.ids with
    | .error fault => some (.error fault)
    | .ok st =>
      match client with
      | .error err => some (.ok (.failed (.rpc err), st))
      | .ok () =>
        let summarize (st : PullState) : PullSummary :=
          ⟨sourceRpcUrl, params.ids.length, batchSize, st.batches, st.alreadyPresent,
            st.fetchedObjects, st.stored, st.invalidIds, st.remoteMissing, st.verificationFailed⟩
        pullLoopRun env z batchSize summarize st responses

end Model

section Meaning
variable {env : Env} {s : ValueStore} {staged : List ValueSegmentEntry}

/-- The patch of an entry fits the bytes of its base. -/
def PatchOfFits (env : Env) (s : ValueStore) (staged : List ValueSegmentEntry)
    (e : ValueSegmentEntry) : Prop :=
  ∀ delta b, e.entry.kind = .delta → e.entry.delta = some delta →
    Resolves patchValue (stagedNode env s staged) delta.base b → PatchFits b e.entry.bytes

/-- The values of a store are those of vectors. -/
def VectorValues (env : Env) (s : ValueStore) : Prop :=
  ∀ id v, materialize env s id = some (.ok v) → v.length ≤ isizeMax

structure VectorBytes (env : Env) (s : ValueStore) (staged : List ValueSegmentEntry) : Prop where
  stored : VectorValues env s
  staged : ∀ e ∈ staged, e.entry.bytes.length ≤ isizeMax

/-- What the cache holds was computed without a fault. -/
structure RunCache (env : Env) (s : ValueStore) (staged : List ValueSegmentEntry)
    (cache : StagedCache) : Prop where
  sound : StagedSound env s staged cache
  small : ∀ id v, cache id = some v → v.length ≤ isizeMax
  fits : ∀ id v e, cache id = some v → findStaged staged id = some e → PatchOfFits env s staged e

theorem RunCache.update {cache : StagedCache} (h : RunCache env s staged cache) {id : ValueId}
    {v : Bytes} {e : ValueSegmentEntry} (he : findStaged staged id = some e)
    (hv : Resolves patchValue (stagedNode env s staged) id v) (hsmall : v.length ≤ isizeMax)
    (hfits : PatchOfFits env s staged e) :
    RunCache env s staged (Function.update cache id (some v)) where
  sound := h.sound.update hv
  small k w hk := by
    by_cases hki : k = id
    · rw [hki, Function.update_self] at hk
      cases hk
      exact hsmall
    · rw [Function.update_of_ne hki] at hk
      exact h.small k w hk
  fits k w e' hk he' := by
    by_cases hki : k = id
    · subst hki
      cases he.symm.trans he'
      exact hfits
    · rw [Function.update_of_ne hki] at hk
      exact h.fits k w e' hk he'

theorem length_of_patchFits {b patch v : Bytes} (hfits : PatchFits b patch)
    (h : applyPatchBytes b patch = .ok v) : v.length ≤ isizeMax := by
  rw [applyPatchBytes] at h
  obtain ⟨⟨targetLen, cursor⟩, htarget, h⟩ := bind_eq_ok h
  obtain ⟨⟨opCount, cursor'⟩, hcount, h⟩ := bind_eq_ok h
  obtain ⟨⟨rest, out⟩, -, h⟩ := bind_eq_ok h
  dsimp only at h
  split_ifs at h with hrest hlen
  cases h
  rw [not_not.mp hlen]
  exact (hfits _ _ _ _ htarget hcount).1

theorem checkPatchedRun_cases {b patch : Bytes} (hb : b.length ≤ isizeMax) (id : ValueId)
    (delta : DeltaEntry) :
    (PatchFits b patch ∧
        checkPatchedRun env id delta b patch = lift (checkPatched env id delta b patch)) ∨
      ¬ PatchFits b patch ∧
        checkPatchedRun env id delta b patch = .error (.fault .capacityOverflow) := by
  by_cases hfits : PatchFits b patch
  · left
    refine ⟨hfits, ?_⟩
    rw [checkPatchedRun, checkPatched, applyPatchRun_of_fits hb hfits]
    rcases applyPatchBytes b patch with err | v
    · rfl
    · change (if v.length ≠ delta.fullLen then _ else _) = _
      dsimp only
      split_ifs <;> rfl
  · right
    refine ⟨hfits, ?_⟩
    rw [checkPatchedRun, applyPatchRun_of_not_fits hb hfits]
    rfl

/-- A checked computation agrees with the one without checks, as far as the cache goes. -/
structure RunAgrees {ε : Type} (env : Env) (s : ValueStore) (staged : List ValueSegmentEntry)
    (checked : Option (Codec.Checked ε Bytes × StagedCache))
    (plain : Option (Except ε Bytes × StagedCache)) : Prop where
  eq : checked = plain.map fun r => (lift r.1, r.2)
  cache : ∀ r c, plain = some (r, c) → RunCache env s staged c
  small : ∀ v c, plain = some (.ok v, c) → v.length ≤ isizeMax

/-- A fault, which some staged patch brings about. -/
def RunFaults {ε : Type} (env : Env) (s : ValueStore) (staged : List ValueSegmentEntry)
    (checked : Option (Codec.Checked ε Bytes × StagedCache)) : Prop :=
  (∃ e ∈ staged, ¬ PatchOfFits env s staged e) ∧
    ∃ c, checked = some (.error (.fault .capacityOverflow), c)

theorem RunAgrees.none {ε : Type} : RunAgrees (ε := ε) env s staged none none where
  eq := rfl
  cache _ _ h := by cases h
  small _ _ h := by cases h

theorem RunAgrees.error {ε : Type} {e : ε} {cache : StagedCache}
    (hcache : RunCache env s staged cache) :
    RunAgrees env s staged (some (.error (.err e), cache)) (some (.error e, cache)) where
  eq := rfl
  cache _ _ h := by
    cases h
    exact hcache
  small _ _ h := by cases h

theorem RunAgrees.ok {ε : Type} {v : Bytes} {cache : StagedCache}
    (hcache : RunCache env s staged cache) (hsmall : v.length ≤ isizeMax) :
    RunAgrees (ε := ε) env s staged (some (.ok v, cache)) (some (.ok v, cache)) where
  eq := rfl
  cache _ _ h := by
    cases h
    exact hcache
  small _ _ h := by
    cases h
    exact hsmall

theorem stagedResolverRun_cases (hbytes : VectorBytes env s staged)
    {checked : ValueId → ValueEntry → StagedCache →
      Option (Codec.Checked TransferMaterializeError Bytes × StagedCache)}
    {plain : ValueId → ValueEntry → StagedCache →
      Option (Except TransferMaterializeError Bytes × StagedCache)}
    (hrecurse : ∀ {baseId e cache}, findStaged staged baseId = some e →
      RunCache env s staged cache →
      RunFaults env s staged (checked baseId e.entry cache) ∨
        RunAgrees env s staged (checked baseId e.entry cache) (plain baseId e.entry cache))
    {baseId : ValueId} {cache : StagedCache} (hcache : RunCache env s staged cache) :
    RunFaults env s staged (stagedResolverRun env s staged checked baseId cache) ∨
      RunAgrees env s staged (stagedResolverRun env s staged checked baseId cache)
        (stagedResolver env s staged plain baseId cache) := by
  rw [stagedResolverRun, stagedResolver]
  rcases hhit : cache baseId with _ | hit
  · dsimp only
    rcases hfind : findStaged staged baseId with _ | e
    · right
      rcases hmat : materialize env s baseId with _ | r
      · exact RunAgrees.none
      · rcases r with err | v
        · exact RunAgrees.error hcache
        · exact RunAgrees.ok hcache (hbytes.stored baseId v hmat)
    · dsimp only
      rcases hrecurse hfind hcache with ⟨hmisfit, c, hfault⟩ | hagrees
      · left
        refine ⟨hmisfit, c, ?_⟩
        rw [hfault]
        rfl
      · right
        rcases hplain : plain baseId e.entry cache with _ | ⟨r, c⟩
        · rw [hagrees.eq, hplain]
          exact RunAgrees.none
        · have hrun := hagrees.eq
          rw [hplain, Option.map_some] at hrun
          rw [hrun, Option.map_some, Option.map_some]
          rcases r with err | v
          · exact RunAgrees.error (hagrees.cache _ c hplain)
          · exact RunAgrees.ok (hagrees.cache _ c hplain) (hagrees.small v c hplain)
  · exact .inr (RunAgrees.ok hcache (hcache.small baseId hit hhit))

/-- One entry, with a resolver that agrees or faults: a patch that is applied fits. -/
theorem materializeTransferEntryRun_cases (hbytes : VectorBytes env s staged) {id : ValueId}
    {e : ValueSegmentEntry} (he : findStaged staged id = some e) {cache : StagedCache}
    (hcache : RunCache env s staged cache)
    {checked : ValueId → StagedCache → Option (Codec.Checked ValueStoreError Bytes × StagedCache)}
    {plain : ValueId → StagedCache → Option (Except ValueStoreError Bytes × StagedCache)}
    (hresolver : ∀ baseId, RunFaults env s staged (checked baseId cache) ∨
      RunAgrees env s staged (checked baseId cache) (plain baseId cache))
    (hsound : ∀ baseId b c, plain baseId cache = some (.ok b, c) →
      Resolves patchValue (stagedNode env s staged) baseId b) :
    RunFaults env s staged (materializeTransferEntryRun env id e.entry checked cache) ∨
      RunAgrees env s staged (materializeTransferEntryRun env id e.entry checked cache)
          (materializeTransferEntryWithResolver env id e.entry plain cache) ∧
        ∀ delta b c, e.entry.kind = .delta → e.entry.delta = some delta →
          plain delta.base cache = some (.ok b, c) → PatchFits b e.entry.bytes := by
  rw [materializeTransferEntryRun, materializeTransferEntryWithResolver]
  by_cases hkind : e.entry.kind = .delta
  · rw [if_neg (not_not.mpr hkind), if_neg (not_not.mpr hkind)]
    rcases hdelta : e.entry.delta with _ | delta
    · exact .inr ⟨RunAgrees.error hcache, fun _ _ _ _ h => by cases h⟩
    dsimp only
    rcases hresolver delta.base with ⟨hmisfit, c, hfault⟩ | hagrees
    · left
      refine ⟨hmisfit, c, ?_⟩
      rw [hfault]
    have hrun := hagrees.eq
    rcases hbase : plain delta.base cache with _ | ⟨err | b, c⟩
    · rw [hbase] at hrun
      rw [hrun]
      refine .inr ⟨RunAgrees.none, fun delta' b c _ hdelta' hbase' => ?_⟩
      cases hdelta'
      cases hbase.symm.trans hbase'
    · rw [hbase, Option.map_some] at hrun
      rw [hrun]
      refine .inr ⟨RunAgrees.error (hagrees.cache _ c hbase), fun delta' b c _ hdelta' hbase' => ?_⟩
      cases hdelta'
      cases hbase.symm.trans hbase'
    · rw [hbase, Option.map_some] at hrun
      rw [hrun]
      dsimp only [lift_ok]
      rcases @checkPatchedRun_cases env b e.entry.bytes (hagrees.small b c hbase) id delta with
        ⟨hfits, hcheck⟩ | ⟨hmisfit, hfault⟩
      · right
        rw [hcheck]
        refine ⟨?_, fun delta' b' c' _ hdelta' hbase' => ?_⟩
        · rcases hvalue : checkPatched env id delta b e.entry.bytes with err | v
          · exact RunAgrees.error (hagrees.cache _ c hbase)
          · obtain ⟨hpatch, -⟩ := checkPatched_ok.mp hvalue
            exact RunAgrees.ok (hagrees.cache _ c hbase)
              (length_of_patchFits hfits (patchValue_eq_some.mp hpatch))
        · cases hdelta'
          cases hbase.symm.trans hbase'
          exact hfits
      · left
        rw [hfault]
        refine ⟨⟨e, findStaged_mem he, fun hown => hmisfit ?_⟩, c, rfl⟩
        exact hown delta b hkind hdelta (hsound delta.base b c hbase)
  · rw [if_pos hkind, if_pos hkind]
    right
    refine ⟨?_, fun _ _ _ hdelta => absurd hdelta hkind⟩
    by_cases hid : env.valueId e.entry.bytes = id
    · rw [if_neg (not_not.mpr hid), if_neg (not_not.mpr hid)]
      exact RunAgrees.ok hcache (hbytes.staged e (findStaged_mem he))
    · rw [if_pos hid, if_pos hid]
      exact RunAgrees.error hcache

/-- The verification of an entry is the one without the checks, or a patch does not fit. -/
theorem materializeStagedRun_cases (hbytes : VectorBytes env s staged) {fuel : ℕ} {id : ValueId}
    {e : ValueSegmentEntry} {visiting : List ValueId} {cache : StagedCache}
    (he : findStaged staged id = some e) (hcache : RunCache env s staged cache) :
    RunFaults env s staged (materializeStagedRun env s staged fuel id e.entry visiting cache) ∨
      RunAgrees env s staged (materializeStagedRun env s staged fuel id e.entry visiting cache)
        (materializeStagedTransferEntry env s staged fuel id e.entry visiting cache) := by
  induction fuel generalizing id e visiting cache with
  | zero => exact .inr RunAgrees.none
  | succ fuel ih =>
    have hwhole := @materializeStaged_sound env s staged (fuel + 1) id e visiting cache
    rw [materializeStagedTransferEntry] at hwhole
    rw [materializeStagedRun, materializeStagedTransferEntry]
    rcases hhit : cache id with _ | hit
    · rw [hhit] at hwhole
      dsimp only at hwhole ⊢
      by_cases hvisit : id ∈ visiting
      · rw [if_pos hvisit, if_pos hvisit]
        exact .inr (RunAgrees.error hcache)
      rw [if_neg hvisit] at hwhole
      rw [if_neg hvisit, if_neg hvisit]
      have hsound (baseId : ValueId) (b : Bytes) (c : StagedCache)
          (hbase : stagedResolver env s staged (fun baseId entry cache =>
            materializeStagedTransferEntry env s staged fuel baseId entry (id :: visiting) cache)
            baseId cache = some (.ok b, c)) :
          Resolves patchValue (stagedNode env s staged) baseId b :=
        (stagedResolver_sound (fun he' hc hr => materializeStaged_sound he' hc hr)
          hcache.sound hbase).2 b rfl
      have hresolver (baseId : ValueId) :=
        @stagedResolverRun_cases env s staged hbytes
          (fun baseId entry cache =>
            materializeStagedRun env s staged fuel baseId entry (id :: visiting) cache)
          (fun baseId entry cache =>
            materializeStagedTransferEntry env s staged fuel baseId entry (id :: visiting) cache)
          (fun he' hc => ih he' hc) baseId cache hcache
      rcases materializeTransferEntryRun_cases hbytes he hcache hresolver hsound with
        ⟨hmisfit, c, hfault⟩ | ⟨hagrees, hfits⟩
      · left
        refine ⟨hmisfit, c, ?_⟩
        rw [hfault]
        rfl
      right
      rw [hagrees.eq]
      rcases hentry : materializeTransferEntryWithResolver env id e.entry
          (stagedResolver env s staged fun baseId entry cache =>
            materializeStagedTransferEntry env s staged fuel baseId entry (id :: visiting) cache)
          cache with _ | ⟨err | v, c⟩
      · exact RunAgrees.none
      · exact RunAgrees.error (hagrees.cache _ c hentry)
      · rw [hentry] at hwhole
        refine RunAgrees.ok ((hagrees.cache _ c hentry).update he
          ((hwhole he hcache.sound rfl).2 v rfl) (hagrees.small v c hentry) ?_)
          (hagrees.small v c hentry)
        intro delta b hkind hdelta hb
        rcases materializeTransferEntryWithResolver_cases hentry with
          ⟨-, hcell⟩ | ⟨delta', rb, -, hdelta', hbase, hpatched⟩
        · exact absurd hkind (hcell v rfl).1
        · cases hdelta.symm.trans hdelta'
          obtain ⟨b', rfl, -⟩ := hpatched v rfl
          rw [hb.functional (hsound delta.base b' c hbase)]
          exact hfits delta b' c hkind hdelta hbase
    · exact .inr (RunAgrees.ok hcache (hcache.small id hit hhit))

/-- A base that resolves is found by the entry that is verified first. -/
theorem stagedResolver_ok {id : ValueId} {e : ValueSegmentEntry} {delta : DeltaEntry}
    (he : findStaged staged id = some e) (hkind : e.entry.kind = .delta)
    (hdelta : e.entry.delta = some delta) {b : Bytes}
    (hb : Resolves patchValue (stagedNode env s staged) delta.base b) {cache : StagedCache}
    (hcache : StagedSound env s staged cache) :
    ∃ c, stagedResolver env s staged (fun baseId entry cache =>
      materializeStagedTransferEntry env s staged staged.length baseId entry [id] cache)
      delta.base cache = some (.ok b, c) := by
  rw [stagedResolver]
  rcases hhit : cache delta.base with _ | hit
  · rcases hfind : findStaged staged delta.base with _ | e'
    · exact ⟨cache, by simp [materialize_of_local hfind hb]⟩
    · classical
      have hex : ∃ n, StagedEnds env staged n delta.base := ⟨_, exists_stagedEnds hfind hb⟩
      have hle := Nat.find_min' hex (exists_stagedEnds hfind hb)
      rcases hn : Nat.find hex with _ | n
      · have hzero := Nat.find_spec hex
        rw [hn] at hzero
        exact hzero.elim
      have hend : StagedEnds env staged (n + 1) delta.base := hn ▸ Nat.find_spec hex
      have hmin : ¬ StagedEnds env staged n delta.base := Nat.find_min hex (by omega)
      have hvisiting : ∀ x ∈ [id], ¬ StagedEnds env staged (n + 1) x := by
        intro x hx hends
        obtain rfl := List.mem_singleton.mp hx
        exact hmin (hends.base he (@stagedNode_delta env s _ _ _ _ he hkind hdelta) hfind)
      obtain ⟨c, hrec⟩ := materializeStaged_ok hfind hb hend hmin hvisiting hcache
        (by omega : n < staged.length)
      exact ⟨c, by simp [hrec, Except.mapError]⟩
  · rw [hb.functional (hcache _ hit hhit)]
    exact ⟨cache, rfl⟩

theorem lift_ne_fault {ε α : Type} (r : Except ε α) (fault : Fault) :
    lift r ≠ .error (.fault fault) := by
  rcases r with err | a <;> simp [lift, Except.mapError]

theorem RunAgrees.not_faults {ε : Type}
    {checked : Option (Codec.Checked ε Bytes × StagedCache)}
    {plain : Option (Except ε Bytes × StagedCache)} (h : RunAgrees env s staged checked plain) :
    ¬ RunFaults env s staged checked := by
  rintro ⟨-, c, hfault⟩
  rw [h.eq] at hfault
  obtain ⟨⟨r, c'⟩, -, heq⟩ := Option.map_eq_some_iff.mp hfault
  exact lift_ne_fault r _ (congrArg Prod.fst heq)

/-- Where the verification of an entry does not fault, its own patch fits. -/
theorem RunAgrees.patchOfFits (hbytes : VectorBytes env s staged) {id : ValueId}
    {e : ValueSegmentEntry} {cache : StagedCache} (he : findStaged staged id = some e)
    (hcache : RunCache env s staged cache)
    (h : RunAgrees env s staged
      (materializeStagedRun env s staged (staged.length + 1) id e.entry [] cache)
      (materializeStagedTransferEntry env s staged (staged.length + 1) id e.entry [] cache)) :
    PatchOfFits env s staged e := by
  rcases hhit : cache id with _ | hit
  · intro delta b hkind hdelta hb
    have hsound (baseId : ValueId) (b : Bytes) (c : StagedCache)
        (hbase : stagedResolver env s staged (fun baseId entry cache =>
          materializeStagedTransferEntry env s staged staged.length baseId entry [id] cache)
          baseId cache = some (.ok b, c)) :
        Resolves patchValue (stagedNode env s staged) baseId b :=
      (stagedResolver_sound (fun he' hc hr => materializeStaged_sound he' hc hr)
        hcache.sound hbase).2 b rfl
    have hresolver (baseId : ValueId) :=
      @stagedResolverRun_cases env s staged hbytes
        (fun baseId entry cache =>
          materializeStagedRun env s staged staged.length baseId entry [id] cache)
        (fun baseId entry cache =>
          materializeStagedTransferEntry env s staged staged.length baseId entry [id] cache)
        (fun he' hc => materializeStagedRun_cases hbytes he' hc) baseId cache hcache
    rcases materializeTransferEntryRun_cases hbytes he hcache hresolver hsound with
      ⟨hmisfit, c, hfault⟩ | ⟨-, hfits⟩
    · refine absurd ⟨hmisfit, c, ?_⟩ h.not_faults
      rw [materializeStagedRun, hhit]
      dsimp only
      rw [if_neg List.not_mem_nil, hfault]
      rfl
    · obtain ⟨c, hbase⟩ := stagedResolver_ok he hkind hdelta hb hcache.sound
      exact hfits delta b c hkind hdelta hbase
  · exact hcache.fits id hit e hhit he

/-- The verification of all staged entries is the one without the checks, and then all patches
fit and the values are those of vectors, or it faults at a patch that does not fit. -/
theorem verifyStagedRun_cases (hs : Healthy env s) (hbytes : VectorBytes env s staged)
    (hnodup : (staged.map (·.id)).Nodup) {es : List ValueSegmentEntry} (hes : es ⊆ staged)
    {cache : StagedCache} (hcache : RunCache env s staged cache) :
    ((∃ e ∈ staged, ¬ PatchOfFits env s staged e) ∧
        verifyStagedRun env s staged es cache = some (.error .capacityOverflow)) ∨
      ∃ ready failed, verifyStaged env s staged es cache = some (ready, failed) ∧
        verifyStagedRun env s staged es cache = some (.ok (ready, failed)) ∧
        (∀ e ∈ es, PatchOfFits env s staged e) ∧ ∀ p ∈ ready, p.2.length ≤ isizeMax := by
  induction es generalizing cache with
  | nil => exact .inr ⟨[], [], rfl, rfl, by simp, by simp⟩
  | cons e es ih =>
    obtain ⟨he, hes⟩ := List.cons_subset.mp hes
    have hfind := find_of_nodup hnodup he
    rw [verifyStagedRun, verifyStaged]
    rcases @materializeStagedRun_cases _ _ _ hbytes (staged.length + 1) _ _ [] _ hfind hcache with
      ⟨hmisfit, c, hfault⟩ | hagrees
    · left
      refine ⟨hmisfit, ?_⟩
      rw [hfault]
    have hown := hagrees.patchOfFits hbytes hfind hcache
    obtain ⟨r, c, hrun, -⟩ := materializeStaged_iff hs hfind hcache.sound
    rw [hagrees.eq, hrun, Option.map_some]
    rcases ih hes (hagrees.cache r c hrun) with
      ⟨hmisfit, hfault⟩ | ⟨ready, failed, hplain, hchecked, hfits, hsmall⟩
    · left
      refine ⟨hmisfit, ?_⟩
      rcases r with (_ | _) | v
      · exact hfault
      · simp [lift, Except.mapError, hfault, Except.map]
      · simp [lift, Except.mapError, hfault, Except.map]
    right
    have hall : ∀ e' ∈ e :: es, PatchOfFits env s staged e' :=
      List.forall_mem_cons.mpr ⟨hown, hfits⟩
    rcases r with (_ | _) | v
    · exact ⟨ready, failed, by simp [hplain], hchecked, hall, hsmall⟩
    · refine ⟨ready, e.id :: failed, by simp [hplain], ?_, hall, hsmall⟩
      simp [lift, Except.mapError, hchecked, Except.map]
    · refine ⟨(e, v) :: ready, failed, by simp [hplain], ?_, hall, ?_⟩
      · simp [lift, Except.mapError, hchecked, Except.map]
      · exact List.forall_mem_cons.mpr ⟨hagrees.small v c hrun, hsmall⟩

/-- A round after the answer: a fault at a patch that does not fit, or what it is without the
checks. -/
theorem verifyAndImportRun_cases {st : PullState} (hs : Healthy env st.store)
    (hbytes : VectorBytes env st.store st.staged) (hnodup : (st.staged.map (·.id)).Nodup) :
    ((∃ e ∈ st.staged, ¬ PatchOfFits env st.store st.staged e) ∧
        verifyAndImportRun env st = some (.error .capacityOverflow)) ∨
      (∀ e ∈ st.staged, PatchOfFits env st.store st.staged e) ∧
        verifyAndImportRun env st = (verifyAndImport env st).map .ok ∧
        ∀ e ∈ st.staged, ∀ v, Resolves patchValue (stagedNode env st.store st.staged) e.id v →
          v.length ≤ isizeMax := by
  have hcache : RunCache env st.store st.staged (fun _ => none) := ⟨nofun, nofun, nofun⟩
  rw [verifyAndImportRun, verifyAndImport]
  rcases verifyStagedRun_cases hs hbytes hnodup (List.Subset.refl _) hcache with
    ⟨hmisfit, hfault⟩ | ⟨ready, failed, hplain, hchecked, hfits, hsmall⟩
  · exact .inl ⟨hmisfit, by rw [hfault]⟩
  · refine .inr ⟨hfits, ?_, fun e he v hv => ?_⟩
    · rw [hchecked, hplain]
    · obtain ⟨ready', failed', hplain', hready⟩ :=
        verifyStaged_spec hs hnodup (List.Subset.refl _) hcache.sound
      rw [hplain] at hplain'
      cases hplain'
      exact hsmall (e, v) ((hready e v).mpr ⟨he, hv⟩)

end Meaning

end SkeinDB.Values
