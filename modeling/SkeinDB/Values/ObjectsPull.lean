import Mathlib.Data.List.DropRight
import SkeinDB.Cluster.State
import SkeinDB.Values.Transfer

/-!
# Pulling objects from a peer

`objects_pull` in `skeindb/src/server.rs`: the ids that are missing are requested in batches, what
the peer answers is staged and verified, and the entries that verify are imported. Bases that are
missing too are requested in turn. Whatever the peer answers, the store holds verified entries
only, all bases of theirs, and no cycle.
-/
namespace SkeinDB.Values
open SkeinDB.Codec SkeinDB.Format SkeinDB.Delta

section Ids

/-- The characters of the Unicode property White_Space. -/
def isWhitespace (c : Char) : Bool :=
  (9 ≤ c.toNat && c.toNat ≤ 13) || (0x2000 ≤ c.toNat && c.toNat ≤ 0x200A) ||
    c.toNat ∈ [0x20, 0x85, 0xA0, 0x1680, 0x2028, 0x2029, 0x202F, 0x205F, 0x3000]

def trim (text : String) : String :=
  .ofList ((text.toList.dropWhile isWhitespace).reverse.dropWhile isWhitespace).reverse

def normalizeId (rawId : String) : String :=
  .ofList ((trim rawId).toList.map Char.toLower)

def toDigit16 (c : Char) : Option ℕ :=
  if '0' ≤ c ∧ c ≤ '9' then some (c.toNat - 48)
  else if 'a' ≤ c ∧ c ≤ 'f' then some (c.toNat - 87)
  else if 'A' ≤ c ∧ c ≤ 'F' then some (c.toNat - 55)
  else none

/-- `u8::from_str_radix` of two characters, the first of which may be a plus sign. -/
def fromStrRadix16 (a b : Char) : Option UInt8 :=
  if a = '+' then (toDigit16 b).map UInt8.ofNat
  else match toDigit16 a, toDigit16 b with
    | some high, some low => some (.ofNat (high * 16 + low))
    | _, _ => none

def parseHexPairs : List Char → Option Bytes
  | [] => some []
  | [_] => none
  | a :: b :: rest =>
    match fromStrRadix16 a b, parseHexPairs rest with
    | some byte, some bytes => some (byte :: bytes)
    | _, _ => none

/-- `str::len`. -/
def byteLen (text : String) : ℕ := (text.toList.map Char.utf8Size).sum

/-- A text that is not ASCII ends the request in a panic where a pair is cut off inside a
character. -/
def parseValueId (hex : String) : Option ValueId :=
  if byteLen hex ≠ 32 then none
  else match parseHexPairs hex.toList with
    | none => none
    | some bytes => if h : bytes.length = 16 then some ⟨bytes, h⟩ else none

def hexDigit (n : ℕ) : Char := if n < 10 then .ofNat (48 + n) else .ofNat (87 + n)

def hexByte (b : UInt8) : List Char := [hexDigit (b.toNat / 16), hexDigit (b.toNat % 16)]

def valueIdToHex (id : ValueId) : String := .ofList (id.val.flatMap hexByte)

theorem fromStrRadix16_hexByte (b : UInt8) :
    fromStrRadix16 (hexDigit (b.toNat / 16)) (hexDigit (b.toNat % 16)) = some b := by
  have hall : ∀ n < 256, fromStrRadix16 (hexDigit (n / 16)) (hexDigit (n % 16)) =
      some (UInt8.ofNat n) := by
    decide +kernel
  rw [hall b.toNat b.toNat_lt, UInt8.ofNat_toNat]

theorem parseHexPairs_hexBytes (bytes : Bytes) :
    parseHexPairs (bytes.flatMap hexByte) = some bytes := by
  induction bytes with
  | nil => rfl
  | cons b bytes ih =>
    change (match fromStrRadix16 _ _, parseHexPairs (bytes.flatMap hexByte) with
      | some byte, some bytes => some (byte :: bytes)
      | _, _ => none) = _
    rw [fromStrRadix16_hexByte, ih]

theorem byteLen_hexBytes (bytes : Bytes) :
    ((bytes.flatMap hexByte).map Char.utf8Size).sum = 2 * bytes.length := by
  have hdigit : ∀ n < 16, (hexDigit n).utf8Size = 1 := by decide +kernel
  induction bytes with
  | nil => rfl
  | cons b bytes ih =>
    have hhigh := hdigit (b.toNat / 16) (by have := b.toNat_lt; omega)
    have hlow := hdigit (b.toNat % 16) (Nat.mod_lt _ (by decide))
    simp only [List.flatMap_cons, hexByte, List.map_append, List.map_cons, List.map_nil,
      List.sum_append, List.sum_cons, List.sum_nil, hhigh, hlow, ih, List.length_cons]
    omega

theorem parseValueId_toHex (id : ValueId) : parseValueId (valueIdToHex id) = some id := by
  have hlen : byteLen (valueIdToHex id) = 32 := by
    rw [byteLen, valueIdToHex, String.toList_ofList, byteLen_hexBytes, id.property]
  rw [parseValueId, hlen, if_neg (not_not.mpr rfl), valueIdToHex, String.toList_ofList,
    parseHexPairs_hexBytes]
  exact dif_pos id.property

theorem valueIdToHex_injective : Function.Injective valueIdToHex := by
  intro a b h
  have hparse := parseValueId_toHex a
  rw [h, parseValueId_toHex] at hparse
  exact (Option.some.inj hparse).symm

/-- `to_ascii_lowercase` moves the 26 letters and keeps every other character. -/
theorem toLower_cases (c : Char) :
    c.toLower = c ∨ ∃ n < 26, c = .ofNat (65 + n) ∧ c.toLower = .ofNat (97 + n) := by
  by_cases hupper : 65 ≤ c.toNat ∧ c.toNat ≤ 90
  · right
    have hall : ∀ n < 26, (Char.ofNat (65 + n)).toLower = Char.ofNat (97 + n) := by decide
    have hc : c = Char.ofNat (65 + (c.toNat - 65)) := by
      rw [Nat.add_sub_cancel' hupper.1, Char.ofNat_toNat]
    refine ⟨c.toNat - 65, by omega, hc, ?_⟩
    rw [← hall (c.toNat - 65) (by omega), ← hc]
  · left
    unfold Char.toLower
    rw [dif_neg]
    rintro ⟨hlo, hhi⟩
    exact hupper ⟨UInt32.le_iff_toNat_le.mp hlo, UInt32.le_iff_toNat_le.mp hhi⟩

theorem isWhitespace_toLower (c : Char) : isWhitespace c.toLower = isWhitespace c := by
  have hall : ∀ n < 26, isWhitespace (.ofNat (97 + n)) = isWhitespace (.ofNat (65 + n)) := by decide
  rcases toLower_cases c with h | ⟨n, hn, hc, h⟩
  · rw [h]
  · rw [h, hall n hn, hc]

theorem toLower_toLower (c : Char) : c.toLower.toLower = c.toLower := by
  have hall : ∀ n < 26, (Char.ofNat (97 + n)).toLower = .ofNat (97 + n) := by decide
  rcases toLower_cases c with h | ⟨n, hn, -, h⟩
  · rw [h, h]
  · rw [h, hall n hn]

theorem trim_toList (text : String) : (trim text).toList =
    (text.toList.dropWhile isWhitespace).rdropWhile isWhitespace := by
  rw [trim, String.toList_ofList, List.rdropWhile]

theorem normalizeId_idem (rawId : String) : normalizeId (normalizeId rawId) = normalizeId rawId := by
  have hlower : isWhitespace ∘ Char.toLower = isWhitespace := funext isWhitespace_toLower
  have hmap (l : List Char) : ((l.map Char.toLower).dropWhile isWhitespace).rdropWhile
      isWhitespace = ((l.dropWhile isWhitespace).rdropWhile isWhitespace).map Char.toLower := by
    rw [List.dropWhile_map, hlower, List.rdropWhile, ← List.map_reverse, List.dropWhile_map,
      hlower, ← List.map_reverse, List.rdropWhile]
  have htrim (l : List Char) : (((l.dropWhile isWhitespace).rdropWhile isWhitespace).dropWhile
      isWhitespace).rdropWhile isWhitespace =
        (l.dropWhile isWhitespace).rdropWhile isWhitespace := by
    have hhead : ((l.dropWhile isWhitespace).rdropWhile isWhitespace).dropWhile isWhitespace =
        (l.dropWhile isWhitespace).rdropWhile isWhitespace := by
      rw [List.dropWhile_eq_self_iff]
      intro hl
      have hpre := List.rdropWhile_prefix isWhitespace (l.dropWhile isWhitespace)
      rw [hpre.getElem hl]
      exact List.dropWhile_get_zero_not isWhitespace l (hl.trans_le hpre.length_le)
    rw [hhead, List.rdropWhile_idempotent]
  have hchars : (trim (normalizeId rawId)).toList = (trim rawId).toList.map Char.toLower := by
    rw [trim_toList, normalizeId, String.toList_ofList, hmap, trim_toList, htrim]
  rw [normalizeId, hchars, List.map_map, normalizeId]
  exact congrArg String.ofList (List.map_congr_left fun c _ => toLower_toLower c)

theorem normalizeId_toHex (id : ValueId) : normalizeId (valueIdToHex id) = valueIdToHex id := by
  have hdigit : ∀ n < 16, isWhitespace (hexDigit n) = false ∧ (hexDigit n).toLower = hexDigit n := by
    decide
  have hchars : ∀ c ∈ id.val.flatMap hexByte, isWhitespace c = false ∧ c.toLower = c := by
    intro c hc
    obtain ⟨b, -, hb⟩ := List.mem_flatMap.mp hc
    have hlt := b.toNat_lt
    rcases List.mem_pair.mp hb with rfl | rfl
    · exact hdigit _ (by omega)
    · exact hdigit _ (Nat.mod_lt _ (by decide))
  have hdrop (l : List Char) (hl : ∀ c ∈ l, isWhitespace c = false) :
      l.dropWhile isWhitespace = l := by
    rw [List.dropWhile_eq_self_iff]
    intro hlen
    simp [hl _ (List.getElem_mem hlen)]
  have htrim : (trim (valueIdToHex id)).toList = id.val.flatMap hexByte := by
    rw [trim_toList, valueIdToHex, String.toList_ofList, hdrop _ fun c hc => (hchars c hc).1,
      List.rdropWhile, hdrop _ fun c hc => (hchars c (List.mem_reverse.mp hc)).1,
      List.reverse_reverse]
  rw [normalizeId, htrim, List.map_congr_left fun c hc => (hchars c hc).2]
  rw [List.map_id', valueIdToHex]

end Ids

section Model

/-- An object of a response of the peer, decoded from its binary or its JSON form. -/
structure RemoteTransferObject where
  id : String
  payload : Option Bytes
  legacyKind : Option String

/-- The answer to one request, with the order in which the table of staged entries is iterated
until the next one. -/
structure RemoteBatch where
  objects : Except Cluster.RpcError (List RemoteTransferObject)
  order : List ValueSegmentEntry → List ValueSegmentEntry
  perm : ∀ es, (order es).Perm es

structure ObjectsPullParams where
  sourceRpcUrl : String
  ids : List String
  batchSize : Option ℕ

def parseValueKindName : String → Option ValueKind
  | "Cell" => some .cell
  | "Group" => some .group
  | "BlobChunk" => some .blobChunk
  | "BlobManifest" => some .blobManifest
  | "Delta" => some .delta
  | "Embedding" => some .embedding
  | _ => none

def objectsPullDefaultBatchSize : ℕ := 64

def objectsPullMaxBatchSize : ℕ := 512

def normalizeObjectsPullBatchSize (batchSize : Option ℕ) : ℕ :=
  max 1 (min (batchSize.getD objectsPullDefaultBatchSize) objectsPullMaxBatchSize)

/-- The state of a pull between two requests. `verified` traces the byte strings whose ids were
checked against the ids of the entries they come from. -/
structure PullState where
  store : ValueStore
  pending : List String
  queued : Finset String
  staged : List ValueSegmentEntry
  verified : List Bytes
  alreadyPresent : ℕ
  invalidIds : List String
  batches : ℕ
  fetchedObjects : ℕ
  stored : ℕ
  remoteMissing : List String
  verificationFailed : List String

inductive PullError where
  | rpc (err : Cluster.RpcError)
  | internal (err : ValueStoreError)

structure PullSummary where
  sourceRpcUrl : String
  requested : ℕ
  batchSize : ℕ
  batches : ℕ
  alreadyPresent : ℕ
  fetchedObjects : ℕ
  stored : ℕ
  invalidIds : List String
  remoteMissing : List String
  verificationFailed : List String

/-- A pull waits for the answer to its next request until it fails or nothing is pending. -/
inductive PullOutcome where
  | finished (summary : PullSummary)
  | failed (err : PullError)
  | waiting

/-- The first loop, over the ids of the request. -/
def queueIds (s : ValueStore) : PullState → Finset String → List String → PullState
  | st, _, [] => st
  | st, seen, rawId :: rawIds =>
    let normalized := normalizeId rawId
    if normalized = "" ∨ normalized ∈ seen then queueIds s st seen rawIds
    else
      let seen := insert normalized seen
      match parseValueId normalized with
      | none => queueIds s { st with invalidIds := st.invalidIds ++ [rawId] } seen rawIds
      | some id =>
        if id ∈ s.index then
          queueIds s { st with alreadyPresent := saturatingAdd st.alreadyPresent 1 } seen rawIds
        else if normalized ∈ st.queued then queueIds s st seen rawIds
        else
          queueIds s
            { st with
              pending := st.pending ++ [normalized]
              queued := insert normalized st.queued } seen rawIds

def noteOnce (notes : List String) (id : String) : List String :=
  if id ∈ notes then notes else notes ++ [id]

/-- The checks of an object before it is staged. -/
def checkObject (z : Zstd) (objectId : String) (object : RemoteTransferObject) :
    Option ValueSegmentEntry :=
  match object.payload with
  | none => none
  | some payload =>
    match decodeTransferEntry z payload with
    | .error _ => none
    | .ok transfer =>
      match parseValueId objectId with
      | none => none
      | some expectedId =>
        if transfer.id ≠ expectedId then none
        else
          let kind := object.legacyKind.bind parseValueKindName
          if kind.all (· = transfer.entry.kind) then some transfer else none

def stageObjects (z : Zstd) (requestedBatch : List String) :
    PullState → Finset String → List RemoteTransferObject → PullState × Finset String
  | st, returnedIds, [] => (st, returnedIds)
  | st, returnedIds, object :: objects =>
    let objectId := normalizeId object.id
    if objectId = "" ∨ objectId ∉ requestedBatch then
      stageObjects z requestedBatch st returnedIds objects
    else
      let returnedIds := insert objectId returnedIds
      match checkObject z objectId object with
      | none =>
        stageObjects z requestedBatch
          { st with verificationFailed := noteOnce st.verificationFailed objectId } returnedIds
          objects
      | some transfer =>
        stageObjects z requestedBatch
          { st with staged := transfer :: st.staged.filter (·.id ≠ transfer.id) } returnedIds
          objects

def settleBatch (st : PullState) (returnedIds : Finset String) (batch : List String) :
    PullState :=
  { st with
    queued := st.queued.filter (· ∉ batch)
    remoteMissing := (batch.filter (· ∉ returnedIds)).foldl noteOnce st.remoteMissing }

/-- The bases that are neither staged nor stored are requested next. -/
def queueBases (staged : List ValueSegmentEntry) : PullState → List ValueSegmentEntry → PullState
  | st, [] => st
  | st, transfer :: transfers =>
    match transfer.entry.delta with
    | none => queueBases staged st transfers
    | some delta =>
      let baseHex := valueIdToHex delta.base
      if (findStaged staged delta.base).isSome ∨ delta.base ∈ st.store.index ∨
          baseHex ∈ st.queued then queueBases staged st transfers
      else
        queueBases staged
          { st with
            pending := st.pending ++ [baseHex]
            queued := insert baseHex st.queued } transfers

def dropFailed (st : PullState) (failedIds : List ValueId) : PullState :=
  let failedHex := failedIds.map valueIdToHex
  { st with
    staged := st.staged.filter (·.id ∉ failedIds)
    queued := st.queued.filter (· ∉ failedHex)
    verificationFailed := failedHex.foldl noteOnce st.verificationFailed }

/-- The entries that verify are imported and leave the table. -/
def importReady (env : Env) (st : PullState) (ready : List (ValueSegmentEntry × Bytes)) :
    Option (Except PullError Unit × PullState) :=
  let verified := st.verified ++ ready.map Prod.snd
  let entries := ready.map Prod.fst
  if ready.isEmpty then some (.ok (), { st with verified := verified })
  else match st.store.importTransferEntries env entries with
    | none => none
    | some (.error err, store) =>
      some (.error (.internal err), { st with store := store, verified := verified })
    | some (.ok n, store) =>
      some (.ok (),
        { st with
          store := store
          stored := saturatingAdd st.stored n
          staged := st.staged.filter (·.id ∉ entries.map (·.id))
          verified := verified })

/-- What an answer leaves staged, in the order of iteration, and to be requested. -/
def stageAnswer (z : Zstd) (batch : List String)
    (order : List ValueSegmentEntry → List ValueSegmentEntry) (st : PullState)
    (objects : List RemoteTransferObject) : PullState :=
  let st := { st with fetchedObjects := saturatingAdd st.fetchedObjects objects.length }
  let (st, returnedIds) := stageObjects z batch st ∅ objects
  let st := settleBatch st returnedIds batch
  let staged := order st.staged
  queueBases staged { st with staged := staged } staged

def verifyAndImport (env : Env) (st : PullState) : Option (Except PullError Unit × PullState) :=
  match verifyStaged env st.store st.staged st.staged (fun _ => none) with
  | none => none
  | some (ready, failedIds) => importReady env (dropFailed st failedIds) ready

/-- One request and what follows from its answer. -/
def pullRound (env : Env) (z : Zstd) (batchSize : ℕ) (st : PullState) (response : RemoteBatch) :
    Option (Except PullError Unit × PullState) :=
  let batch := st.pending.take batchSize
  let st :=
    { st with pending := st.pending.drop batchSize, batches := saturatingAdd st.batches 1 }
  match response.objects with
  | .error err => some (.error (.rpc err), st)
  | .ok objects => verifyAndImport env (stageAnswer z batch response.order st objects)

def pullLoop (env : Env) (z : Zstd) (batchSize : ℕ) (summarize : PullState → PullSummary) :
    PullState → List RemoteBatch → Option (PullOutcome × PullState)
  | st, responses =>
    if st.pending.isEmpty then
      let lingering := st.staged.map fun e => valueIdToHex e.id
      let st := { st with verificationFailed := lingering.foldl noteOnce st.verificationFailed }
      some (.finished (summarize st), st)
    else match responses with
      | [] => some (.waiting, st)
      | response :: responses =>
        match pullRound env z batchSize st response with
        | none => none
        | some (.error err, st) => some (.failed err, st)
        | some (.ok (), st) => pullLoop env z batchSize summarize st responses

def PullState.start (s : ValueStore) : PullState :=
  ⟨s, [], ∅, [], [], 0, [], 0, 0, 0, [], []⟩

/-- A pull with the answers that the peer has given so far. `client` is the outcome of building
the connection. -/
def objectsPull (env : Env) (z : Zstd) (s : ValueStore) (params : ObjectsPullParams)
    (client : Except Cluster.RpcError Unit) (responses : List RemoteBatch) :
    Option (PullOutcome × PullState) :=
  let sourceRpcUrl := trim params.sourceRpcUrl
  if sourceRpcUrl = "" then
    some (.failed (.rpc ⟨"invalid_request", "source_rpc_url is required"⟩), .start s)
  else
    let batchSize := normalizeObjectsPullBatchSize params.batchSize
    let st := queueIds s (.start s) ∅ params.ids
    match client with
    | .error err => some (.failed (.rpc err), st)
    | .ok () =>
      let summarize (st : PullState) : PullSummary :=
        ⟨sourceRpcUrl, params.ids.length, batchSize, st.batches, st.alreadyPresent,
          st.fetchedObjects, st.stored, st.invalidIds, st.remoteMissing, st.verificationFailed⟩
      pullLoop env z batchSize summarize st responses

end Model

section Invariant
variable {env : Env} {z : Zstd} {s₀ : ValueStore} {st : PullState}

/-- No id of the store at the start of the pull is requested or staged. -/
structure Pulling (env : Env) (s₀ : ValueStore) (st : PullState) : Prop where
  clean : CleanRun env st.store
  grows : ∀ id ∈ s₀.index, id ∈ st.store.index
  pendingNew : ∀ text ∈ st.pending, ∀ id ∈ parseValueId text, id ∉ s₀.index
  stagedNew : ∀ e ∈ st.staged, e.id ∉ s₀.index
  fits : ∀ e ∈ st.staged, e.entry.Fits
  nodup : (st.staged.map (·.id)).Nodup

/-- What the pull has added has the id of its bytes. -/
def Checked (env : Env) (s₀ : ValueStore) (st : PullState) : Prop :=
  ∀ id ∈ st.store.index, id ∉ s₀.index →
    ∃ v ∈ st.verified, env.valueId v = id ∧ Resolves patchValue (st.store.node env) id v

theorem Pulling.start (hs : CleanRun env s₀) : Pulling env s₀ (.start s₀) where
  clean := hs
  grows := fun _ h => h
  pendingNew := by simp [PullState.start]
  stagedNew := by simp [PullState.start]
  fits := by simp [PullState.start]
  nodup := by simp [PullState.start]

/-- Only the store, the requests and the staged entries matter. -/
theorem Pulling.same (h : Pulling env s₀ st) {st' : PullState} (hstore : st'.store = st.store)
    (hpending : st'.pending = st.pending) (hstaged : st'.staged = st.staged) :
    Pulling env s₀ st' := by
  constructor
  · rw [hstore]
    exact h.clean
  · rw [hstore]
    exact h.grows
  · rw [hpending]
    exact h.pendingNew
  · rw [hstaged]
    exact h.stagedNew
  · rw [hstaged]
    exact h.fits
  · rw [hstaged]
    exact h.nodup

theorem Pulling.push (h : Pulling env s₀ st) {text : String} {id : ValueId}
    (htext : parseValueId text = some id) (hid : id ∉ s₀.index) (queued : Finset String) :
    Pulling env s₀ { st with pending := st.pending ++ [text], queued := queued } := by
  refine ⟨h.clean, h.grows, ?_, h.stagedNew, h.fits, h.nodup⟩
  intro text' hmem id' hid'
  rcases List.mem_append.mp hmem with hmem | hmem
  · exact h.pendingNew text' hmem id' hid'
  · rw [List.mem_singleton.mp hmem, htext] at hid'
    cases hid'
    exact hid

theorem Pulling.queueIds (h : Pulling env s₀ st) (hstore : st.store = s₀) (seen : Finset String)
    (rawIds : List String) :
    Pulling env s₀ (queueIds s₀ st seen rawIds) ∧ (queueIds s₀ st seen rawIds).store = s₀ := by
  induction rawIds generalizing st seen with
  | nil => exact ⟨h, hstore⟩
  | cons rawId rawIds ih =>
    rw [Values.queueIds]
    dsimp only
    split
    · exact ih h hstore _
    split
    · apply ih
      · exact h.same rfl rfl rfl
      · exact hstore
    rename_i id hid
    split
    · apply ih
      · exact h.same rfl rfl rfl
      · exact hstore
    rename_i hnew
    split
    · exact ih h hstore _
    · exact ih (h.push hid hnew _) hstore _

/-- An object that is staged has the id that was asked for. -/
theorem checkObject_spec {objectId : String} {object : RemoteTransferObject}
    {transfer : ValueSegmentEntry} (h : checkObject z objectId object = some transfer) :
    parseValueId objectId = some transfer.id ∧
      ∃ payload ∈ object.payload, decodeTransferEntry z payload = .ok transfer := by
  rw [checkObject] at h
  rcases hpayload : object.payload with _ | payload
  · simp [hpayload] at h
  rcases hdecode : decodeTransferEntry z payload with _ | e
  · simp [hpayload, hdecode] at h
  rcases hid : parseValueId objectId with _ | expectedId
  · simp [hpayload, hdecode, hid] at h
  simp only [hpayload, hdecode, hid] at h
  split_ifs at h with hne
  cases h
  exact ⟨by rw [not_not.mp hne], payload, rfl, hdecode⟩

theorem Pulling.stageObjects (h : Pulling env s₀ st)
    (hz : ∀ bytes decoded, z.decodeAll bytes = .ok decoded → decoded.length < 2 ^ 63)
    {batch : List String} (hbatch : ∀ text ∈ batch, ∀ id ∈ parseValueId text, id ∉ s₀.index)
    (returnedIds : Finset String) {objects : List RemoteTransferObject}
    (hsizes : ∀ object ∈ objects, ∀ payload ∈ object.payload, payload.length < 2 ^ 63) :
    let st' := (stageObjects z batch st returnedIds objects).1
    Pulling env s₀ st' ∧ st'.store = st.store ∧ st'.verified = st.verified := by
  induction objects generalizing st returnedIds with
  | nil => exact ⟨h, rfl, rfl⟩
  | cons object objects ih =>
    obtain ⟨hsize, hsizes⟩ := List.forall_mem_cons.mp hsizes
    rw [Values.stageObjects]
    dsimp only
    split
    · exact ih h _ hsizes
    rename_i hrequested
    obtain ⟨-, hmem⟩ := not_or.mp hrequested
    split
    · refine ih ?_ _ hsizes
      exact h.same rfl rfl rfl
    rename_i transfer hcheck
    obtain ⟨hid, payload, hpayload, hdecode⟩ := checkObject_spec hcheck
    have hstaged : Pulling env s₀
        { st with staged := transfer :: st.staged.filter (·.id ≠ transfer.id) } := by
      refine ⟨h.clean, h.grows, h.pendingNew, ?_, ?_, ?_⟩
      · intro e he
        rcases List.mem_cons.mp he with rfl | he
        · exact hbatch _ (not_not.mp hmem) _ hid
        · exact h.stagedNew e (List.mem_of_mem_filter he)
      · intro e he
        rcases List.mem_cons.mp he with rfl | he
        · exact decodeTransferEntry_fits hz (hsize payload hpayload) hdecode
        · exact h.fits e (List.mem_of_mem_filter he)
      · rw [List.map_cons, List.nodup_cons]
        refine ⟨?_, h.nodup.sublist (List.filter_sublist.map _)⟩
        intro hin
        obtain ⟨e, he, heq⟩ := List.mem_map.mp hin
        simpa [heq] using (List.mem_filter.mp he).2
    exact ih hstaged _ hsizes

theorem Pulling.queueBases (h : Pulling env s₀ st) (staged transfers : List ValueSegmentEntry) :
    let st' := queueBases staged st transfers
    Pulling env s₀ st' ∧ st'.store = st.store ∧ st'.verified = st.verified := by
  induction transfers generalizing st with
  | nil => exact ⟨h, rfl, rfl⟩
  | cons transfer transfers ih =>
    rw [Values.queueBases]
    dsimp only
    split
    · exact ih h
    rename_i delta hdelta
    split
    · exact ih h
    · rename_i hmissing
      have hbase : delta.base ∉ s₀.index := fun hmem =>
        hmissing (.inr (.inl (h.grows _ hmem)))
      exact ih (h.push (parseValueId_toHex delta.base) hbase _)

theorem Checked.same (h : Checked env s₀ st) {st' : PullState} (hstore : st'.store = st.store)
    (hverified : st'.verified = st.verified) : Checked env s₀ st' := by
  rw [Checked, hstore, hverified]
  exact h

/-- With no collision among the values that were checked, a staged id that the pull has added
before has the same value. -/
theorem Checked.agrees (h : Checked env s₀ st) {staged : List ValueSegmentEntry}
    (hnew : ∀ e ∈ staged, e.id ∉ s₀.index) (hnodup : (staged.map (·.id)).Nodup)
    {ready : List (ValueSegmentEntry × Bytes)} (haccepted : Accepted env st.store staged ready)
    (hinj : Set.InjOn env.valueId {v | v ∈ st.verified ++ ready.map Prod.snd}) :
    Agrees env st.store staged := by
  intro e he hid v hv
  obtain ⟨w, hw, hwid, hres⟩ := h e.id hid (hnew e he)
  have hvid : env.valueId v = e.id := valueId_of_staged (find_of_nodup hnodup he) hv
  have hready : v ∈ ready.map Prod.snd := List.mem_map_of_mem ((haccepted e v).mpr ⟨he, hv⟩)
  have heq : v = w := hinj (List.mem_append_right _ hready) (List.mem_append_left _ hw)
    (hvid.trans hwid.symm)
  rw [heq]
  exact hres

/-- What an import of accepted entries adds was checked. -/
theorem Checked.import (h : Checked env s₀ st) {staged : List ValueSegmentEntry}
    (hnodup : (staged.map (·.id)).Nodup) {ready : List (ValueSegmentEntry × Bytes)}
    (haccepted : Accepted env st.store staged ready) {u : ValueStore}
    (hindex : ∀ id, id ∈ u.index ↔ id ∈ st.store.index ∨ ∃ e ∈ ready.map Prod.fst, e.id = id)
    (hkeeps : ∀ id v, Resolves patchValue (st.store.node env) id v →
      Resolves patchValue (u.node env) id v)
    (hready : ∀ p ∈ ready, Resolves patchValue (u.node env) p.1.id p.2) :
    ∀ id ∈ u.index, id ∉ s₀.index → ∃ v ∈ st.verified ++ ready.map Prod.snd,
      env.valueId v = id ∧ Resolves patchValue (u.node env) id v := by
  intro id hid hnew
  rcases (hindex id).mp hid with hold | ⟨e, he, rfl⟩
  · obtain ⟨v, hv, hvid, hres⟩ := h id hold hnew
    exact ⟨v, List.mem_append_left _ hv, hvid, hkeeps id v hres⟩
  · obtain ⟨⟨e, v⟩, hp, rfl⟩ := List.mem_map.mp he
    obtain ⟨hmem, hv⟩ := (haccepted e v).mp hp
    refine ⟨v, List.mem_append_right _ (List.mem_map_of_mem hp), ?_, hready _ hp⟩
    exact valueId_of_staged (find_of_nodup hnodup hmem) hv

/-- The import of one round: it returns, and without a collision it succeeds. -/
theorem Pulling.importReady (h : Pulling env s₀ st) {staged : List ValueSegmentEntry}
    (hnew : ∀ e ∈ staged, e.id ∉ s₀.index) (hfits : ∀ e ∈ staged, e.entry.Fits)
    (hnodup : (staged.map (·.id)).Nodup) {ready : List (ValueSegmentEntry × Bytes)}
    (haccepted : Accepted env st.store staged ready) :
    ∃ r st', importReady env st ready = some (r, st') ∧ st.verified ⊆ st'.verified ∧
      (r = .ok () → Pulling env s₀ st') ∧
      (Set.InjOn env.valueId {v | v ∈ st'.verified} → Checked env s₀ st →
        r = .ok () ∧ Checked env s₀ st') := by
  have hhealthy := h.clean.healthy
  rw [Values.importReady]
  split
  · rename_i hempty
    obtain rfl : ready = [] := List.isEmpty_iff.mp hempty
    refine ⟨.ok (), _, rfl, by simp, fun _ => h.same rfl rfl rfl, fun _ hchecked => ⟨rfl, ?_⟩⟩
    intro id hid hnew
    obtain ⟨v, hv, hrest⟩ := hchecked id hid hnew
    exact ⟨v, List.mem_append_left _ hv, hrest⟩
  · have hfits' : ∀ e ∈ ready.map Prod.fst, e.entry.Fits := by
      intro e he
      obtain ⟨⟨e, v⟩, hp, rfl⟩ := List.mem_map.mp he
      exact hfits e ((haccepted e v).mp hp).1
    obtain ⟨r, -, -, u, hrun, -, -⟩ :=
      importTransferEntries_spec env hhealthy.wf (ready.map Prod.fst)
    have hindex : ∀ id, id ∈ u.index ↔ id ∈ st.store.index ∨ ∃ e ∈ ready.map Prod.fst, e.id = id :=
      fun id => mem_index_of_import hhealthy.wf hrun
    rcases r with err | n
    · rw [hrun]
      refine ⟨.error (.internal err), _, rfl, List.subset_append_left _ _, nofun, ?_⟩
      intro hinj hchecked
      obtain ⟨n, u', hok, -⟩ :=
        haccepted.import hhealthy hnodup (hchecked.agrees hnew hnodup haccepted hinj)
      rw [hrun] at hok
      cases hok
    · rw [hrun]
      refine ⟨.ok (), _, rfl, List.subset_append_left _ _, fun _ => ?_, fun hinj hchecked => ?_⟩
      · refine ⟨.importTransferEntries h.clean hfits' hrun, ?_, h.pendingNew, ?_, ?_, ?_⟩
        · exact fun id hid => (hindex id).mpr (.inl (h.grows id hid))
        · exact fun e he => h.stagedNew e (List.mem_of_mem_filter he)
        · exact fun e he => h.fits e (List.mem_of_mem_filter he)
        · exact h.nodup.sublist (List.filter_sublist.map _)
      · obtain ⟨n', u', hok, hkeeps, hready⟩ :=
          haccepted.import hhealthy hnodup (hchecked.agrees hnew hnodup haccepted hinj)
        rw [hrun] at hok
        cases hok
        exact ⟨rfl, hchecked.import hnodup haccepted hindex hkeeps hready⟩

theorem Pulling.stageAnswer (h : Pulling env s₀ st)
    (hz : ∀ bytes decoded, z.decodeAll bytes = .ok decoded → decoded.length < 2 ^ 63)
    {batch : List String} (hbatch : ∀ text ∈ batch, ∀ id ∈ parseValueId text, id ∉ s₀.index)
    {order : List ValueSegmentEntry → List ValueSegmentEntry} (hperm : ∀ es, (order es).Perm es)
    {objects : List RemoteTransferObject}
    (hsizes : ∀ object ∈ objects, ∀ payload ∈ object.payload, payload.length < 2 ^ 63) :
    let st' := stageAnswer z batch order st objects
    Pulling env s₀ st' ∧ st'.store = st.store ∧ st'.verified = st.verified := by
  have hfetched : Pulling env s₀
      { st with fetchedObjects := saturatingAdd st.fetchedObjects objects.length } :=
    h.same rfl rfl rfl
  obtain ⟨hstaged, hstore, hverified⟩ := hfetched.stageObjects hz hbatch ∅ hsizes
  rw [Values.stageAnswer]
  dsimp only
  rcases hstage : Values.stageObjects z batch
    { st with fetchedObjects := saturatingAdd st.fetchedObjects objects.length } ∅ objects with
    ⟨st', returnedIds⟩
  rw [hstage] at hstaged hstore hverified
  have hp := hperm st'.staged
  have hordered : Pulling env s₀
      { settleBatch st' returnedIds batch with staged := order st'.staged } := by
    refine ⟨hstaged.clean, hstaged.grows, hstaged.pendingNew, fun e he => ?_, fun e he => ?_, ?_⟩
    · exact hstaged.stagedNew e (hp.mem_iff.mp he)
    · exact hstaged.fits e (hp.mem_iff.mp he)
    · exact (hp.map _).nodup_iff.mpr hstaged.nodup
  obtain ⟨hqueued, hstore', hverified'⟩ := hordered.queueBases (order st'.staged) (order st'.staged)
  exact ⟨hqueued, hstore'.trans hstore, hverified'.trans hverified⟩

theorem Pulling.dropFailed (h : Pulling env s₀ st) (failedIds : List ValueId) :
    Pulling env s₀ (dropFailed st failedIds) := by
  refine ⟨h.clean, h.grows, h.pendingNew, fun e he => ?_, fun e he => ?_, ?_⟩
  · exact h.stagedNew e (List.mem_of_mem_filter he)
  · exact h.fits e (List.mem_of_mem_filter he)
  · exact h.nodup.sublist (List.filter_sublist.map _)

theorem Pulling.verifyAndImport (h : Pulling env s₀ st) :
    ∃ r st', verifyAndImport env st = some (r, st') ∧ st.verified ⊆ st'.verified ∧
      (r = .ok () → Pulling env s₀ st') ∧
      (Set.InjOn env.valueId {v | v ∈ st'.verified} → Checked env s₀ st →
        r = .ok () ∧ Checked env s₀ st') := by
  have hcache : StagedSound env st.store st.staged (fun _ => none) := nofun
  obtain ⟨ready, failedIds, hverify, hready⟩ :=
    verifyStaged_spec h.clean.healthy h.nodup (List.Subset.refl _) hcache
  obtain ⟨r, st', hrun, hsub, hok, hchecks⟩ :=
    (h.dropFailed failedIds).importReady h.stagedNew h.fits h.nodup hready
  refine ⟨r, st', ?_, hsub, hok, fun hinj hchecked => hchecks hinj (hchecked.same rfl rfl)⟩
  rw [Values.verifyAndImport, hverify]
  exact hrun

/-- One round returns. It only fails with the error of the peer, unless two values collide. -/
theorem Pulling.round (h : Pulling env s₀ st)
    (hz : ∀ bytes decoded, z.decodeAll bytes = .ok decoded → decoded.length < 2 ^ 63)
    {response : RemoteBatch}
    (hsizes : ∀ objects, response.objects = .ok objects → ∀ object ∈ objects,
      ∀ payload ∈ object.payload, payload.length < 2 ^ 63) (batchSize : ℕ) :
    ∃ r st', pullRound env z batchSize st response = some (r, st') ∧
      st.verified ⊆ st'.verified ∧ (r = .ok () → Pulling env s₀ st') ∧
      (Set.InjOn env.valueId {v | v ∈ st'.verified} → Checked env s₀ st →
        (∀ err, r ≠ .error (.internal err)) ∧ CleanRun env st'.store ∧ Checked env s₀ st') := by
  have hbatch : ∀ text ∈ st.pending.take batchSize, ∀ id ∈ parseValueId text, id ∉ s₀.index :=
    fun text htext => h.pendingNew text (List.mem_of_mem_take htext)
  have hrest : Pulling env s₀
      { st with pending := st.pending.drop batchSize, batches := saturatingAdd st.batches 1 } :=
    ⟨h.clean, h.grows, fun text htext => h.pendingNew text (List.mem_of_mem_drop htext),
      h.stagedNew, h.fits, h.nodup⟩
  rw [pullRound]
  rcases hobjects : response.objects with err | objects
  · refine ⟨.error (.rpc err), _, rfl, List.Subset.refl _, nofun, fun _ hchecked => ?_⟩
    exact ⟨nofun, h.clean, hchecked.same rfl rfl⟩
  · obtain ⟨hstaged, hstore, hverified⟩ :=
      hrest.stageAnswer hz hbatch response.perm (hsizes objects hobjects)
    obtain ⟨r, st', hrun, hsub, hok, hchecks⟩ := hstaged.verifyAndImport
    refine ⟨r, st', hrun, ?_, hok, fun hinj hchecked => ?_⟩
    · rw [hverified] at hsub
      exact hsub
    · obtain ⟨rfl, hchecked'⟩ := hchecks hinj (hchecked.same hstore hverified)
      exact ⟨nofun, (hok rfl).clean, hchecked'⟩

/-- The loop returns with a clean store that holds checked entries. -/
theorem Pulling.loop (h : Pulling env s₀ st)
    (hz : ∀ bytes decoded, z.decodeAll bytes = .ok decoded → decoded.length < 2 ^ 63)
    {responses : List RemoteBatch}
    (hsizes : ∀ response ∈ responses, ∀ objects, response.objects = .ok objects →
      ∀ object ∈ objects, ∀ payload ∈ object.payload, payload.length < 2 ^ 63) (batchSize : ℕ)
    (summarize : PullState → PullSummary) :
    ∃ outcome st', pullLoop env z batchSize summarize st responses = some (outcome, st') ∧
      st.verified ⊆ st'.verified ∧
      (Set.InjOn env.valueId {v | v ∈ st'.verified} → Checked env s₀ st →
        (∀ err, outcome ≠ .failed (.internal err)) ∧ CleanRun env st'.store ∧
          Checked env s₀ st') := by
  induction responses generalizing st with
  | nil =>
    rw [pullLoop]
    split
    · refine ⟨_, _, rfl, List.Subset.refl _, fun _ hchecked => ?_⟩
      exact ⟨nofun, h.clean, hchecked.same rfl rfl⟩
    · refine ⟨_, _, rfl, List.Subset.refl _, fun _ hchecked => ?_⟩
      exact ⟨nofun, h.clean, hchecked⟩
  | cons response responses ih =>
    obtain ⟨hsize, hsizes⟩ := List.forall_mem_cons.mp hsizes
    rw [pullLoop]
    split
    · refine ⟨_, _, rfl, List.Subset.refl _, fun _ hchecked => ?_⟩
      exact ⟨nofun, h.clean, hchecked.same rfl rfl⟩
    · obtain ⟨r, st₁, hrun, hsub, hok, hchecks⟩ := h.round hz hsize batchSize
      rw [hrun]
      rcases r with err | _
      · refine ⟨_, _, rfl, hsub, fun hinj hchecked => ?_⟩
        obtain ⟨hne, hclean, hchecked'⟩ := hchecks hinj hchecked
        refine ⟨fun e heq => ?_, hclean, hchecked'⟩
        cases heq
        exact hne e rfl
      · obtain ⟨outcome, st', hloop, hsub', hrest⟩ := ih (hok rfl) hsizes
        refine ⟨outcome, st', hloop, List.Subset.trans hsub hsub', fun hinj hchecked => ?_⟩
        have hinj₁ : Set.InjOn env.valueId {v | v ∈ st₁.verified} :=
          hinj.mono fun v hv => hsub' hv
        exact hrest hinj (hchecks hinj₁ hchecked).2.2

theorem CleanRun.chainEnds {s : ValueStore} (h : CleanRun env s) {id : ValueId}
    (hid : id ∈ s.index) : ∃ n, ChainEnds env s n id := by
  obtain ⟨v, -, hv⟩ := h.healthy.sound id hid
  exact Resolves.grounded hv.resolves

theorem CleanRun.base_stored {s : ValueStore} (h : CleanRun env s) {id base : ValueId}
    (hbase : BaseOf s id base) : base ∈ s.index := by
  have hwf := h.healthy.wf
  obtain ⟨n, hn⟩ := h.chainEnds (baseOf_stored hwf (.single hbase))
  obtain ⟨m, -, hm⟩ := hbase.chainEnds hn
  obtain ⟨entry, hentry⟩ := hm.entry
  rw [← ValueStore.entryById_isSome hwf, hentry]
  rfl

theorem CleanRun.acyclic {s : ValueStore} (h : CleanRun env s) (id : ValueId) :
    ¬ Relation.TransGen (BaseOf s) id id := by
  intro hcycle
  obtain ⟨n, hn⟩ := h.chainEnds (baseOf_stored h.healthy.wf hcycle)
  exact hn.acyclic hcycle

end Invariant

/-- Whatever the peer has answered so far, the pull has returned to its loop or has ended, and
unless two byte strings that it checked collide, everything it added materializes to bytes with its
id, the store holds every base, and no base chain is a cycle. A failure is the error of a request
and never that of the import. -/
theorem objects_pull_verified {env : Env} {z : Zstd} {s : ValueStore} (hs : CleanRun env s)
    (hz : ∀ bytes decoded, z.decodeAll bytes = .ok decoded → decoded.length < 2 ^ 63)
    (params : ObjectsPullParams) (client : Except Cluster.RpcError Unit)
    {responses : List RemoteBatch}
    (hsizes : ∀ response ∈ responses, ∀ objects, response.objects = .ok objects →
      ∀ object ∈ objects, ∀ payload ∈ object.payload, payload.length < 2 ^ 63) :
    ∃ outcome t, objectsPull env z s params client responses = some (outcome, t) ∧
      (Set.InjOn env.valueId {v | v ∈ t.verified} →
        (∀ id ∈ t.store.index, id ∉ s.index →
          ∃ v, materialize env t.store id = some (.ok v) ∧ env.valueId v = id) ∧
        (∀ id base, BaseOf t.store id base → base ∈ t.store.index) ∧
        (∀ id, ¬ Relation.TransGen (BaseOf t.store) id id) ∧
        CleanRun env t.store ∧ ∀ err, outcome ≠ .failed (.internal err)) := by
  have hfinal {t : PullState} {outcome : PullOutcome}
      (h : (∀ err, outcome ≠ .failed (.internal err)) ∧ CleanRun env t.store ∧ Checked env s t) :
      (∀ id ∈ t.store.index, id ∉ s.index →
          ∃ v, materialize env t.store id = some (.ok v) ∧ env.valueId v = id) ∧
        (∀ id base, BaseOf t.store id base → base ∈ t.store.index) ∧
        (∀ id, ¬ Relation.TransGen (BaseOf t.store) id id) ∧
        CleanRun env t.store ∧ ∀ err, outcome ≠ .failed (.internal err) := by
    obtain ⟨hne, hclean, hchecked⟩ := h
    refine ⟨?_, fun _ _ hbase => hclean.base_stored hbase, hclean.acyclic, hclean, hne⟩
    intro id hid hnew
    obtain ⟨v, -, hvid, hv⟩ := hchecked id hid hnew
    have hsound := (hclean.healthy.sound_of_resolves hv).2
    exact ⟨v, (materialize_ok hclean.healthy.wf hsound).1, hvid⟩
  have hstart : Checked env s (.start s) := fun id hid hnew => absurd hid hnew
  obtain ⟨hqueued, hstore⟩ := (Pulling.start hs).queueIds rfl ∅ params.ids
  rw [objectsPull]
  dsimp only
  split
  · refine ⟨_, _, rfl, fun _ => hfinal ⟨?_, hs, hstart⟩⟩
    exact fun err heq => by cases heq
  · have hchecked : Checked env s (queueIds s (.start s) ∅ params.ids) := by
      intro id hid hnew
      rw [hstore] at hid
      exact absurd hid hnew
    rcases client with err | _
    · refine ⟨_, _, rfl, fun _ => hfinal ⟨?_, hqueued.clean, hchecked⟩⟩
      exact fun err heq => by cases heq
    · obtain ⟨outcome, t, hrun, -, hrest⟩ := hqueued.loop hz hsizes
        (normalizeObjectsPullBatchSize params.batchSize) _
      exact ⟨outcome, t, hrun, fun hinj => hfinal (hrest hinj hchecked)⟩

section Sample

/-- A compression library that refuses what does not fit into memory. -/
def boundedFrames : Zstd where
  encodeAll bytes := bytes
  decodeAll bytes := if bytes.length < 2 ^ 63 then .ok bytes else .error .fileTooLarge

def sampleAnswer (id : ValueId) (entry : ValueEntry) : RemoteBatch where
  objects :=
    .ok [⟨valueIdToHex id, (encodeTransferEntry boundedFrames id entry).toOption, none⟩]
  order es := es
  perm es := .refl es

/-- A delta, and in the second answer its base. -/
def samplePeer : List RemoteBatch :=
  let base := sampleEnv.valueId [1, 2, 3]
  let patch := buildPatchBytes [1, 2, 3] [1, 2, 3, 4]
  [sampleAnswer (sampleEnv.valueId [1, 2, 3, 4]) ⟨.delta, patch, some ⟨base, 4, 0, []⟩⟩,
    sampleAnswer base ⟨.cell, [1, 2, 3], none⟩]

theorem samplePeer_sizes : ∀ response ∈ samplePeer, ∀ objects, response.objects = .ok objects →
    ∀ object ∈ objects, ∀ payload ∈ object.payload, payload.length < 2 ^ 63 := by
  have hlengths : ∀ response ∈ samplePeer, ∀ objects ∈ response.objects.toOption,
      ∀ object ∈ objects, ∀ payload ∈ object.payload, payload.length < 100 := by
    decide +kernel
  intro response hresponse objects hobjects object hobject payload hpayload
  have hlt := hlengths response hresponse objects (by rw [hobjects]; rfl) object hobject payload
    hpayload
  omega

/-- A delta that comes before its base is stored once both are verified. -/
theorem objects_pull_verified_sample :
    let id := sampleEnv.valueId [1, 2, 3, 4]
    ∃ outcome t, objectsPull sampleEnv boundedFrames (.new sampleConfig)
        ⟨"http://b:8080", [valueIdToHex id], none⟩ (.ok ()) samplePeer = some (outcome, t) ∧
      id ∈ t.store.index ∧
      ∃ v, materialize sampleEnv t.store id = some (.ok v) ∧ sampleEnv.valueId v = id := by
  intro id
  have hz : ∀ bytes decoded, boundedFrames.decodeAll bytes = .ok decoded →
      decoded.length < 2 ^ 63 := by
    intro bytes decoded h
    simp only [boundedFrames] at h
    split_ifs at h with hlen
    cases h
    exact hlen
  obtain ⟨outcome, t, hrun, hrest⟩ := objects_pull_verified (.new sampleConfig) hz
    ⟨"http://b:8080", [valueIdToHex id], none⟩ (.ok ()) samplePeer_sizes
  have hseen : (objectsPull sampleEnv boundedFrames (.new sampleConfig)
      ⟨"http://b:8080", [valueIdToHex id], none⟩ (.ok ()) samplePeer).map
        (fun r => (decide (id ∈ r.2.store.index), r.2.verified)) =
      some (true, [[1, 2, 3], [1, 2, 3, 4]]) := by
    decide +kernel
  rw [hrun] at hseen
  obtain ⟨hid, hverified⟩ : id ∈ t.store.index ∧ t.verified = [[1, 2, 3], [1, 2, 3, 4]] := by
    simpa using hseen
  have hinj : Set.InjOn sampleEnv.valueId {v | v ∈ t.verified} := by
    rw [hverified]
    simp only [List.mem_cons, List.not_mem_nil, or_false]
    rintro _ (rfl | rfl) _ (rfl | rfl) <;> decide
  exact ⟨outcome, t, hrun, hid, (hrest hinj).1 id hid (by simp [ValueStore.new])⟩

end Sample

end SkeinDB.Values
